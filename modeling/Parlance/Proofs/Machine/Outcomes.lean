/-
  What compiling answers, on any machine and to any tool.
-/
import Parlance.Editor.Server
import Parlance.Proofs.Code.Listings
import Parlance.Proofs.Compiler.Places
import Parlance.Proofs.Machine.Moments
import Parlance.Tool.Folder
import Parlance.Tool.Repl

namespace Parlance

variable {file source : String}

-- no statement about runs looks into compilations
attribute [local irreducible] compileTokens

/-! ## Reading a layout back -/

namespace Heap

variable {h : Heap} {r x : Ref} {p q : Proto} {f : Function}

theorem NameIs.unique {a b : Option String} {name : Option Ref} (ha : h.NameIs a name)
    (hb : h.NameIs b name) : a = b := by
  cases a <;> cases b <;> cases name <;> simp_all [NameIs]

theorem LaidOut.function_eq (hl : h.LaidOut p r) : ∃ f, h.object? r = some (.function f) := by
  cases hl with
  | intro hf => exact ⟨_, hf⟩

/-- A constant is known by its value, if the functions among constants are. -/
theorem ConstantIs.unique {low : Nat} {k k' : Constant} {v : Value} (hk : h.ConstantIs low k v)
    (hk' : h.ConstantIs low k' v)
    (hfunction : ∀ q q' x, k = .function q → v = .object x → h.LaidOut q' x → q = q') : k = k' := by
  obtain ⟨hvalue, hnested⟩ := hk
  obtain ⟨hvalue', hnested'⟩ := hk'
  -- a function is no string and no native
  have hobject : ∀ {q x o}, h.LaidOut q x → h.object? x = some o → ∃ f, o = .function f :=
    fun hl ho => by
    obtain ⟨f, hf⟩ := hl.function_eq
    exact ⟨f, Option.some.inj (ho.symm.trans hf)⟩
  cases k <;> cases k' <;> simp only [ValueIs] at hvalue hvalue' <;> grind

/-- **An object is the layout of one function only.** -/
theorem LaidOut.unique (hl : h.LaidOut p r) (hl' : h.LaidOut q r) : p = q := by
  induction hl generalizing q with
  | @intro p r f hf hname harity hup hcode hlines hsize hpool hnested ih =>
    obtain ⟨f', hf', hname', harity', hup', hcode', hlines', hpool'⟩ := laidOut_iff.1 hl'
    rw [hf] at hf'
    cases hf'
    have hconstants : p.constants = q.constants := by
      refine List.ext_getElem? fun i => ?_
      by_cases hi : i < p.constants.length
      · obtain ⟨k, hk⟩ : ∃ k, p.constants[i]? = some k := ⟨_, List.getElem?_eq_getElem hi⟩
        obtain ⟨k', hk'⟩ : ∃ k', q.constants[i]? = some k' :=
          ⟨_, List.getElem?_eq_getElem (by rw [← hpool'.size_eq, hsize]; exact hi)⟩
        obtain ⟨v, hv⟩ : ∃ v, f.chunk.constants[i]? = some v :=
          ⟨_, Array.getElem?_eq_getElem (by rw [hsize]; exact hi)⟩
        rw [hk, hk']
        refine congrArg some (ConstantIs.unique ⟨hpool hk hv, ?_⟩ (hpool'.constant hk' hv) ?_)
        · rintro q x rfl rfl
          exact hnested hk hv
        · rintro q q' x rfl rfl hq'
          exact ih hk hv hq'
      · rw [List.getElem?_eq_none (Nat.not_lt.1 hi), List.getElem?_eq_none]
        rw [← hpool'.size_eq, hsize]
        exact Nat.not_lt.1 hi
    obtain ⟨_, _, _, _, _, _⟩ := p
    obtain ⟨name', arity', upvalueCount', code', lines', constants'⟩ := q
    have := hname.unique hname'
    simp_all

end Heap

/-! ## Listings -/

namespace Heap

variable {h : Heap} {r : Ref} {p : Proto} {f : Function}

theorem NameIs.nameOf_eq (hname : h.NameIs p.name f.name) : h.nameOf f = p.name := by
  unfold nameOf chars?
  revert hname
  cases p.name <;> cases f.name <;> simp_all [NameIs]

theorem NameIs.functionText_eq (hname : h.NameIs p.name f.name) : h.functionText f = p.text := by
  have heq := hname.nameOf_eq
  cases hn : p.name <;> simp [functionText, Proto.text, heq, hn]

theorem ConstantIs.shown {low : Nat} {k : Constant} {v : Value} (hk : h.ConstantIs low k v) :
    h.pool.display v = Constant.pool.display k ∧ h.pool.captures? v = Constant.pool.captures? k := by
  obtain ⟨hvalue, hnested⟩ := hk
  cases k with
  | nul | number _ =>
    cases hvalue
    exact ⟨rfl, rfl⟩
  | bool b =>
    cases hvalue
    cases b <;> exact ⟨rfl, rfl⟩
  | text s | native name =>
    obtain ⟨x, rfl, hx⟩ := hvalue
    simp [pool, Constant.pool, text?, objectText?, function?, hx, Constant.display]
  | function q =>
    obtain ⟨x, rfl, -⟩ := hvalue
    obtain ⟨g, hg, hname, -, hup, -⟩ := laidOut_iff.1 (hnested q x rfl rfl)
    simp [pool, Constant.pool, text?, objectText?, function?, hg, Constant.display,
      hname.functionText_eq, hup]

/-- **The listing of a function on the heap** is that of the function it is laid out from. -/
theorem LaidOut.listing (hl : h.LaidOut p r) (hf : h.object? r = some (.function f)) :
    listChunk? h.pool f.chunk (h.displayName f) = listChunk? Constant.pool p.chunk p.displayName := by
  obtain ⟨g, hg, hname, -, -, hcode, hlines, hpool⟩ := laidOut_iff.1 hl
  rw [hf] at hg
  cases hg
  have hshown : ∀ i : Nat, (f.chunk.constants[i]? = none ∧ p.constants[i]? = none) ∨ ∃ k v,
      f.chunk.constants[i]? = some v ∧ p.constants[i]? = some k ∧ h.ConstantIs r.serial k v :=
      fun i => by
    cases hv : f.chunk.constants[i]? with
    | none =>
      refine .inl ⟨rfl, List.getElem?_eq_none ?_⟩
      rw [← hpool.size_eq]
      exact Array.getElem?_eq_none_iff.1 hv
    | some v =>
      have hi : i < p.constants.length := hpool.size_eq ▸ (Array.getElem?_eq_some_iff.1 hv).1
      exact .inr ⟨_, v, rfl, List.getElem?_eq_getElem hi,
        hpool.constant (List.getElem?_eq_getElem hi) hv⟩
  have halike : f.chunk.Alike h.pool Constant.pool p.chunk := by
    refine ⟨hcode, hlines, fun i => ?_, fun i => ?_⟩ <;>
      obtain ⟨hv, hk⟩ | ⟨k, v, hv, hk, hkv⟩ := hshown i <;>
      simp [Proto.chunk, hv, hk]
    · exact hkv.shown.1
    · exact hkv.shown.2
  rw [halike.listChunk?_eq, displayName, hname.nameOf_eq]
  rfl

end Heap

/-! ## Machines -/

namespace Machine

variable {host : Host} {m : Machine} {file source : String} {p : Proto} {r : Ref} {ds : Diagnostics}

/-- Compiling the source gives the function `r`, which is laid out as the script `p` and as no other
function, and listed as `p` is. -/
structure Renders (m : Machine) (file source : String) (p : Proto) (r : Ref) : Prop where
  compiled : (m.compile file source).1 = .ok r
  laid : ∀ q, (m.compile file source).2.heap.LaidOut q r ↔ q = p
  listed : ∃ f, (m.compile file source).2.heap.object? r = some (.function f) ∧
    listChunk? (m.compile file source).2.heap.pool f.chunk
    ((m.compile file source).2.heap.displayName f) =
      listChunk? Constant.pool p.chunk p.displayName

theorem compile_eq_error (hm : Moment host m.heap m.roots)
    (h : (Parlance.compile file source).result = .error ds) :
    (m.compile file source).1 = .error ds := by
  obtain ⟨hsound, hroots⟩ := hm.sound
  obtain ⟨r, -, hr⟩ := compile_spec hsound hroots file source
  rw [hr, h]

theorem renders_of_moment (hm : Moment host m.heap m.roots)
    (h : (Parlance.compile file source).result = .ok p) : ∃ r, m.Renders file source p r := by
  obtain ⟨hsound, hroots⟩ := hm.sound
  obtain ⟨r, hr, -, hlaid⟩ := compile_ok hsound hroots h
  obtain ⟨f, hf⟩ := hlaid.function_eq
  exact ⟨r, hr, fun q => ⟨fun hq => hq.unique hlaid, fun hq => hq ▸ hlaid⟩, f, hf, hlaid.listing hf⟩

theorem run_refused (hm : Moment host m.heap m.roots) (host' : Host) (turns : Nat)
    (h : (Parlance.compile file source).result = .error ds) :
    (m.run host' turns file source).1 = .refused ds := by
  have hcompile := compile_eq_error hm h
  unfold run
  split
  · rename_i heq
    rw [heq] at hcompile
    cases hcompile
    rfl
  · rename_i heq
    rw [heq] at hcompile
    cases hcompile

theorem Renders.run_ne_refused (hr : m.Renders file source p r) (host : Host) (turns : Nat)
    (ds : Diagnostics) : (m.run host turns file source).1 ≠ .refused ds := by
  have hcompile := hr.compiled
  unfold run
  split
  · rename_i heq
    rw [heq] at hcompile
    cases hcompile
  · exact runFunction_ne_refused rfl ds

end Machine

/-! ## Names of files -/

theorem result_unnamed (file source : String) :
    (compile file source).result.mapError (List.map Diagnostic.unnamed) =
    (compile "" source).result := by
  rw [← compile_unnamed file source]
  generalize compile file source = c
  unfold Compiled.result Compiled.unnamed
  cases hd : c.diagnostics <;> simp [Except.mapError]

theorem result_ok_of_named {p : Proto} (h : (compile file source).result = .ok p)
    (file' : String) : (compile file' source).result = .ok p := by
  have heq := (result_unnamed file source).trans (result_unnamed file' source).symm
  rw [h] at heq
  cases h' : (compile file' source).result with
  | ok q =>
    rw [h'] at heq
    exact congrArg Except.ok (Except.ok.inj heq).symm
  | error ds =>
    rw [h'] at heq
    cases heq

/-- Nor anything in the diagnostics but the name itself. -/
theorem result_error_of_named {ds : Diagnostics} (h : (compile file source).result = .error ds)
    (file' : String) : ∃ ds', (compile file' source).result = .error ds' ∧
      ds'.map Diagnostic.unnamed = ds.map Diagnostic.unnamed := by
  have heq := (result_unnamed file source).trans (result_unnamed file' source).symm
  rw [h] at heq
  cases h' : (compile file' source).result with
  | ok q =>
    rw [h'] at heq
    cases heq
  | error ds' =>
    rw [h'] at heq
    exact ⟨ds', rfl, (Except.error.inj heq).symm⟩

/-! ## Tools -/

/-- A session gives a command. -/
def Session.gives (s : Session) (command : StateM Session Exit) : Exit × Session := command s

/-- There is a script under the path, with this source. -/
def Session.Holds (s : Session) (path source : String) : Prop :=
  Image.isPath path = false ∧ ∃ bytes, s.folder.read path = .ok bytes ∧ Text.ofBytes bytes = source

/-- Every tool refuses the source, with these diagnostics. -/
structure Refused (source : String) (ds : Diagnostics) : Prop where
  run : ∀ {host : Host} {m : Machine}, Moment host m.heap m.roots →
    ∀ (host' : Host) (turns : Nat) (file : String), ∃ ds',
    (m.run host' turns file source).1 = .refused ds' ∧ ds'.map Diagnostic.unnamed =
    ds.map Diagnostic.unnamed
  editor : ∀ uri, Editor.findings uri source = ds.map .ofDiagnostic
  repl : needsMore source = ds.isIncomplete
  check : ∀ {s : Session} {path}, s.Holds path source →
    (s.gives (Command.check [path])).1.status = .data
  listing : ∀ {s : Session} {path}, s.Holds path source →
    (s.gives (Command.disassemble path)).1.status = .data ∧
    (s.gives (Command.disassemble path)).2.out = s.out
  build : ∀ {s : Session} {path}, s.Holds path source → ∀ output,
    (s.gives (Command.build path output)).1.status = .data ∧
      (s.gives (Command.build path output)).2.folder = s.folder

/-- Every tool accepts the source, and takes it for this script. -/
structure Accepted (source : String) (p : Proto) : Prop where
  editor : ∀ uri, Editor.findings uri source = []
  repl : needsMore source = false
  check : ∀ {s : Session} {path}, s.Holds path source → s.gives (Command.check [path]) = ({}, s)
  listing : ∀ {s : Session} {path}, s.Holds path source →
    s.gives (Command.disassemble path) = ({}, { s with out := s.out ++ p.listing?.getD "" })
  build : ∀ {s : Session} {path}, s.Holds path source → ∀ {image output folder},
    Image.encode p = .ok image → output ≠ "" → s.folder.write output image = .ok folder →
    s.gives (Command.build path output) = ({}, { s with folder })

theorem Session.read_bind {α : Type} (s : Session) (path : String)
    (f : Except FileError (Array UInt8) → StateM Session α) :
    (Desk.readFile path >>= f) s = f (s.folder.read path) s := rfl

theorem Session.write_bind {α : Type} {s : Session} {path : String} {bytes : Array UInt8}
    {folder : Folder}
    (h : s.folder.write path bytes = .ok folder) (f : Except FileError Unit → StateM Session α) :
    (Desk.writeFile path bytes >>= f) s = f (.ok ()) { s with folder } := by
  have hwrite : (Desk.writeFile path bytes : StateM Session (Except FileError Unit)) s =
      (.ok (), { s with folder }) := by
    simp only [Desk.writeFile, bind, StateT.bind, get, getThe, MonadStateOf.get, StateT.get, pure, h]
    rfl
  exact congrArg (fun r => f r.1 r.2) hwrite

theorem ofDiagnostic_unnamed {ds ds' : Diagnostics}
    (h : ds'.map Diagnostic.unnamed = ds.map Diagnostic.unnamed) :
    ds'.map Editor.Finding.ofDiagnostic = ds.map Editor.Finding.ofDiagnostic := by
  have hfinding : Editor.Finding.ofDiagnostic = Editor.Finding.ofDiagnostic ∘ Diagnostic.unnamed := rfl
  rw [hfinding, ← List.map_map, ← List.map_map, h]

theorem isIncomplete_unnamed {ds ds' : Diagnostics}
    (h : ds'.map Diagnostic.unnamed = ds.map Diagnostic.unnamed) :
    ds'.isIncomplete = ds.isIncomplete := by
  have hany : ∀ ds : Diagnostics, ds.isIncomplete = (ds.map Diagnostic.unnamed).any
    Diagnostic.isIncomplete := fun ds => by
    rw [List.any_map]
    rfl
  rw [hany, hany, h]

theorem refused_of_result {ds : Diagnostics} (h : (compile file source).result = .error ds) :
    Refused source ds := by
  have hnamed := result_error_of_named h
  refine ⟨fun hm host' turns file' => ?_, fun uri => ?_, ?_, fun {s path} hs => ?_,
    fun {s path} hs => ?_, fun {s path} hs output => ?_⟩
  · obtain ⟨ds', h', heq⟩ := hnamed file'
    exact ⟨ds', Machine.run_refused hm host' turns h', heq⟩
  · obtain ⟨ds', h', heq⟩ := hnamed uri
    rw [Editor.findings_of_error h']
    exact ofDiagnostic_unnamed heq
  · obtain ⟨ds', h', heq⟩ := hnamed "repl"
    unfold needsMore
    rw [h']
    exact isIncomplete_unnamed heq
  all_goals
    obtain ⟨himage, bytes, hread, rfl⟩ := hs
    obtain ⟨ds', h', -⟩ := hnamed (Path.base path)
  · unfold Session.gives Command.check Command.checkAll
    rw [Session.read_bind, hread]
    dsimp only
    rw [h']
    rfl
  · unfold Session.gives Command.disassemble
    rw [Session.read_bind, hread]
    dsimp only
    rw [himage, h']
    exact ⟨rfl, rfl⟩
  · unfold Session.gives Command.build
    rw [Session.read_bind, hread]
    dsimp only
    rw [h']
    exact ⟨rfl, rfl⟩

theorem accepted_of_result {p : Proto} (h : (compile file source).result = .ok p) :
    Accepted source p := by
  have hnamed := result_ok_of_named h
  refine ⟨fun uri => ?_, ?_, fun {s path} hs => ?_, fun {s path} hs => ?_,
    fun {s path} hs {image output folder} hencode hne hwrite => ?_⟩
  · exact Editor.findings_of_ok (hnamed uri)
  · unfold needsMore
    rw [hnamed "repl"]
  all_goals
    obtain ⟨himage, bytes, hread, rfl⟩ := hs
    have h' := hnamed (Path.base path)
  · unfold Session.gives Command.check Command.checkAll
    rw [Session.read_bind, hread]
    dsimp only
    rw [h']
    rfl
  · unfold Session.gives Command.disassemble
    rw [Session.read_bind, hread]
    dsimp only
    rw [himage, h']
    rfl
  · unfold Session.gives Command.build
    rw [Session.read_bind, hread]
    dsimp only
    have hempty : output.isEmpty = false := by simpa using hne
    rw [h']
    dsimp only
    rw [hencode, hempty]
    exact Session.write_bind hwrite _

/-- **Compilation does not depend on the heap.** Two machines, each at any moment of its life,
answer alike to a source under a name: with the same diagnostics, and then every tool refuses the
source with them, or with the same script, and then every tool takes the source for that script. -/
theorem compilations_agree {host₁ host₂ : Host} {m₁ m₂ : Machine} (h₁ : Moment host₁ m₁.heap m₁.roots)
    (h₂ : Moment host₂ m₂.heap m₂.roots) (file source : String) :
    (∃ ds, (m₁.compile file source).1 = .error ds ∧ (m₂.compile file source).1 = .error ds ∧
      Refused source ds) ∨
    (∃ p r₁ r₂, m₁.Renders file source p r₁ ∧ m₂.Renders file source p r₂ ∧ Accepted source p ∧
      ∀ host turns file' ds, (m₁.run host turns file' source).1 ≠ .refused ds ∧
        (m₂.run host turns file' source).1 ≠ .refused ds) := by
  cases h : (compile file source).result with
  | error ds =>
    exact .inl ⟨ds, Machine.compile_eq_error h₁ h, Machine.compile_eq_error h₂ h, refused_of_result h⟩
  | ok p =>
    obtain ⟨r₁, hr₁⟩ := Machine.renders_of_moment h₁ h
    obtain ⟨r₂, hr₂⟩ := Machine.renders_of_moment h₂ h
    refine .inr ⟨p, r₁, r₂, hr₁, hr₂, accepted_of_result h, fun host turns file' ds => ?_⟩
    obtain ⟨r₁', hr₁'⟩ := Machine.renders_of_moment h₁ (result_ok_of_named h file')
    obtain ⟨r₂', hr₂'⟩ := Machine.renders_of_moment h₂ (result_ok_of_named h file')
    exact ⟨hr₁'.run_ne_refused host turns ds, hr₂'.run_ne_refused host turns ds⟩

/-- A function that names a global, a string and a function inside. -/
def namingSource : String :=
  "fonction g() \x7b fonction h() \x7b retourner g; \x7d afficher \"g\", h; \x7d"

theorem compilations_agree_naming :
    ∃ (m₁ m₂ : Machine) (p : Proto) (r₁ r₂ : Ref), m₁.heap.settings.stress = false ∧
    m₂.heap.settings.stress = true ∧ 0 < m₂.heap.collections ∧ m₁.Renders "naming" namingSource p r₁ ∧
    m₂.Renders "naming" namingSource p r₂ ∧ Accepted namingSource p := by
  have hcompiles : (match ((Machine.new {}).compile "naming" namingSource).1 with
    | .ok _ => true
    | .error _ => false) = true := by decide +kernel
  have hruns : (match (Machine.new { heap := { stress := true } }).run #[] 100 "" cyclicSource with
    | (.finished, m) => m.heap.settings.stress && decide (0 < m.heap.collections)
    | _ => false) = true := by decide +kernel
  cases hrun : (Machine.new { heap := { stress := true } }).run #[] 100 "" cyclicSource with
  | mk o m =>
    rw [hrun] at hruns
    cases o with
    | finished =>
      obtain ⟨hstress, hcollections⟩ := (Bool.and_eq_true ..).mp hruns
      have hused := @Machine.InUse.run #[] (Machine.new { heap := { stress := true } }) 100 ""
        cyclicSource (.new _) (by rw [hrun]; nofun)
      rw [hrun] at hused
      have hnew : Moment #[] (Machine.new {}).heap (Machine.new {}).roots := .idle (.new {})
      have hagree := compilations_agree hnew (.idle hused) "naming" namingSource
      rcases hagree with ⟨ds, herror, -⟩ | ⟨p, r₁, r₂, hr₁, hr₂, haccepted, -⟩
      · rw [herror] at hcompiles
        cases hcompiles
      · exact ⟨_, _, p, r₁, r₂, rfl, hstress, of_decide_eq_true hcollections, hr₁, hr₂, haccepted⟩
    | _ => cases hruns

end Parlance
