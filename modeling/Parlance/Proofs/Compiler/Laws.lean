/-
  Laws of compilation: what every move keeps to, whether the source is refused or not.
-/
import Parlance.Proofs.Compiler.Abreast

namespace Parlance

namespace Comp

open Compilation (Shared Heard)

variable {R : Compilation → Compilation → Prop} {α : Type} {x : Comp α}

/-- A move that keeps to `R`. -/
abbrev Obeys (R : Compilation → Compilation → Prop) (x : Comp α) : Prop := Kept (Shared R) x

variable [law : IsPreorder Compilation R]

theorem Obeys.run (h : Obeys R x) (s : Compilation) : R s (x.run s).2 := (h.1 ⟨rfl, law.refl s⟩).2.2

theorem obeys_of (h : ∀ s, R s (x.run s).2) : Obeys R x := ⟨fun {_ s _} hst => by
  rw [hst.1]
  exact ⟨rfl, rfl, law.trans _ _ _ hst.2 (h s)⟩⟩

/-- A relation that elementary changes keep to which only add code. -/
theorem heard_of (complain : ∀ s t c, R s (s.complainAt t c))
    (grow : ∀ (s : Compilation) (c : Context), s.context.Adds s.previous.location.line c →
      R s { s with context := c })
    (capture : ∀ (s : Compilation) name, R s (s.after (capture name s.context s.around)))
    (pool : ∀ (s : Compilation) b c, s.context.Pools b c →
      R s { s with context := c, builds := s.builds.push b })
    (pass : ∀ s : Compilation, s.current.kind.isPlain = true → R s s.advance)
    (stumble : ∀ (s : Compilation) c, R s (s.advance.complainAt s.advance.previous c)) :
    Heard (Shared R) :=
  { Compilation.Ahead.shared (I := R) (fun _ h => law.trans _ _ _ h (complain _ _ _))
      (fun _ h => law.trans _ _ _ h (complain _ _ _)) with
    grow := fun h hc => ⟨by rw [h.1], law.trans _ _ _ h.2 (grow _ _ hc)⟩
    capture := fun h hr => ⟨by rw [h.1], law.trans _ _ _ h.2 (hr ▸ capture _ _)⟩
    pool := fun h hb => ⟨by rw [h.1], law.trans _ _ _ h.2 (pool _ _ _ hb)⟩
    pass := fun h hp => ⟨by rw [h.1], law.trans _ _ _ h.2 (pass _ hp)⟩
    stumble := fun _ h => ⟨by rw [h.1], law.trans _ _ _ h.2 (stumble _ _)⟩ }

end Comp

/-! ## Steps of layout -/

/-- The function with one more constant. -/
def Proto.add (p : Proto) (k : Constant) : Proto := { p with constants := p.constants ++ [k] }

/-- The index of a name among the constants, to which it is added if it is not there. -/
def Proto.refer (p : Proto) (name : String) : Nat × Proto :=
  match p.chunk.firstIndex? (·.isText name) with
  | some index => (index, p)
  | none => (p.constants.length, p.add (.text name))

/-- What steps of layout come to. -/
structure Plan where
  /-- The functions begun, the innermost first. -/
  begun : List Proto := []
  /-- The script, once it is complete. -/
  script : Option Proto := none
  /-- Some name has another index than the step says. -/
  astray : Bool := false

namespace Plan

/-- A function is complete: it joins the one around it, or is the script. -/
def complete (g : Plan) (p : Proto) : List Proto → Plan
  | [] => { g with begun := [], script := some p }
  | outer :: ps => { g with begun := outer.add (.function p) :: ps, script := none }

def step (g : Plan) : Build → Plan
  | .enter name => { g with begun := { name } :: g.begun, script := none }
  | .constant k => { g with begun := g.begun.modifyHead (·.add k), script := none }
  | .name s index =>
    match g.begun with
    | [] => { g with script := none }
    | p :: ps => { begun := (p.refer s).2 :: ps, astray := g.astray || (p.refer s).1 != index }
  | .leave q _ =>
    match g.begun with
    | [] => g
    | p :: ps => g.complete { q with name := p.name, constants := p.constants } ps

end Plan

/-- How many functions are begun and not ended after a step. -/
def Build.depth (n : Nat) : Build → Nat
  | .enter _ => n + 1
  | .constant _ | .name .. => n
  | .leave .. => n - 1

theorem Plan.length_step (g : Plan) (t : Build) :
    (g.step t).begun.length = t.depth g.begun.length := by
  obtain ⟨ps, script, astray⟩ := g
  rcases ps with _ | ⟨p, _ | ⟨outer, ps⟩⟩ <;> cases t <;> rfl

theorem Plan.length_foldl (builds : List Build) (g : Plan) :
    (builds.foldl Plan.step g).begun.length = builds.foldl Build.depth g.begun.length := by
  induction builds generalizing g with
  | nil => rfl
  | cons t builds ih => rw [List.foldl_cons, List.foldl_cons, ih, g.length_step]

/-- What is known of a function while it is under way. -/
def Proto.stock (p : Proto) : Option String × List Constant := (p.name, p.constants)

def Context.stock (c : Context) : Option String × List Constant := (c.name, c.chunk.constants.toList)

theorem Proto.eq_proto {p : Proto} {c : Context} (h : p.stock = c.stock) :
    { c.proto with name := p.name, constants := p.constants } = c.proto := by
  obtain ⟨hname, hconstants⟩ := Prod.mk.inj h
  rw [hname, hconstants]
  rfl

/-- A name has the same index in the function under way and in what is known of it. -/
theorem Proto.refer_eq {p : Proto} {c : Context} (h : p.stock = c.stock) (name : String) :
    p.refer name = match c.chunk.firstIndex? (·.isText name) with
      | some index => (index, p)
      | none => (c.chunk.constants.size, p.add (.text name)) := by
  obtain ⟨-, hconstants⟩ := Prod.mk.inj h
  have hfirst : p.chunk.firstIndex? (·.isText name) = c.chunk.firstIndex? (·.isText name) := by
    unfold Chunk.firstIndex? Proto.chunk
    rw [hconstants]
  rw [refer, hfirst, hconstants]
  rfl

theorem Context.stock_addCapture (c : Context) (k : Capture) : (c.addCapture k).2.stock = c.stock := by
  unfold addCapture
  split
  · rfl
  · split <;> rfl

namespace Compilation

/-- What the steps so far come to. -/
def plan (s : Compilation) : Plan := s.builds.toList.foldl Plan.step {}

/-- The steps so far come to the functions under way, `n` of them around the one of now, as far as
names and constants go, and the index of each name is right. -/
structure Tracks (n : Nat) (s : Compilation) : Prop where
  length_eq : s.around.length = n
  begun : s.plan.begun.map Proto.stock = (s.context :: s.around).map Context.stock
  straight : s.plan.astray = false
  literal : ∀ b ∈ s.builds, b.Literal

namespace Tracks

variable {n : Nat} {s s' : Compilation}

theorem of_stock (hs : s.Tracks n) (hcontext : s'.context.stock = s.context.stock)
    (haround : s'.around.map Context.stock = s.around.map Context.stock)
    (hbuilds : s'.builds = s.builds) : s'.Tracks n := by
  have hplan : s'.plan = s.plan := by rw [plan, hbuilds, plan]
  refine ⟨?_, ?_, hplan ▸ hs.straight, hbuilds ▸ hs.literal⟩
  · have hlength := congrArg List.length haround
    rw [List.length_map, List.length_map] at hlength
    exact hlength.trans hs.length_eq
  · rw [hplan, hs.begun, List.map_cons, List.map_cons, hcontext, haround]

theorem of_code (hs : s.Tracks n) (h : s'.code = s.code) : s'.Tracks n :=
  hs.of_stock (congrArg (·.1.stock) h) (congrArg (·.2.1.map Context.stock) h) (congrArg (·.2.2) h)

theorem complainAt (hs : s.Tracks n) (t : Token) (c : Complaint) : (s.complainAt t c).Tracks n :=
  hs.of_code (code_complainAt s t c)

theorem advance (hs : s.Tracks n) : s.advance.Tracks n := hs.of_code (code_advance s)

theorem plan_push (s : Compilation) (b : Build) :
    ({ s with builds := s.builds.push b } : Compilation).plan = s.plan.step b := by
  rw [plan, Array.toList_push, List.foldl_concat, plan]

/-- The functions begun, with the one of now apart. -/
theorem exists_begun (hs : s.Tracks n) :
    ∃ p ps, s.plan = { begun := p :: ps, script := s.plan.script } ∧
    p.stock = s.context.stock ∧ ps.map Proto.stock = s.around.map Context.stock := by
  have hbegun := hs.begun
  cases hplan : s.plan with
  | mk begun script astray =>
    rw [hplan] at hbegun
    cases begun with
    | nil => cases hbegun
    | cons p ps =>
      obtain ⟨hp, hps⟩ := List.cons.inj hbegun
      have hstraight : astray = false := (congrArg Plan.astray hplan).symm.trans hs.straight
      exact ⟨p, ps, by rw [hstraight], hp, hps⟩

theorem pool {b : Build} {c : Context} (hs : s.Tracks n) (hb : s.context.Pools b c) :
    ({ s with context := c, builds := s.builds.push b } : Compilation).Tracks n := by
  obtain ⟨p, ps, hplan, hp, hps⟩ := hs.exists_begun
  have hstep : ∃ p' script, s.plan.step b = { begun := p' :: ps, script } ∧ p'.stock = c.stock := by
    have hadd : ∀ k, (p.add k).stock = (s.context.addConstant k).stock := fun k => by
      obtain ⟨hname, hconstants⟩ := Prod.mk.inj hp
      simp only [Proto.stock, Proto.add, Context.stock, Context.addConstant, Chunk.addConstant,
        Array.toList_push, hname, hconstants]
    rw [hplan]
    cases hb with
    | @literal k _ => exact ⟨p.add k, none, rfl, hadd k⟩
    | @known name i found =>
      have hrefer := Proto.refer_eq hp name
      rw [found] at hrefer
      exact ⟨p, none, by simp [Plan.step, hrefer], hp⟩
    | @named name missing =>
      have hrefer := Proto.refer_eq hp name
      rw [missing] at hrefer
      exact ⟨p.add (.text name), none, by simp [Plan.step, hrefer], hadd _⟩
  obtain ⟨p', script, hstep, hp'⟩ := hstep
  have hplan' : ({ s with context := c, builds := s.builds.push b } : Compilation).plan = _ :=
    (plan_push s b).trans hstep
  refine ⟨hs.length_eq, ?_, by rw [hplan'], ?_⟩
  · rw [hplan', List.map_cons, List.map_cons, hp', hps]
  · intro b' hb'
    rcases Array.mem_push.1 hb' with hb' | rfl
    · exact hs.literal b' hb'
    · exact hb.literal_build

end Tracks

theorem tracks_heard : Heard (Shared Tracks) :=
  { Ahead.shared (I := Tracks) (fun _ h => h.complainAt _ _) (fun _ h => h.complainAt _ _) with
    grow := fun h hc =>
      ⟨by rw [h.1], h.2.of_stock (by rw [Context.stock, hc.name, hc.constants]; rfl) rfl rfl⟩
    capture := fun h hr => ⟨by rw [h.1], by
      subst hr
      obtain ⟨hinner, haround⟩ := capture_eq Context.stock_addCapture (fun _ _ => rfl) _ _ _
      exact h.2.of_stock hinner haround rfl⟩
    pool := fun h hb => ⟨by rw [h.1], h.2.pool hb⟩
    pass := fun h _ => ⟨by rw [h.1], h.2.advance⟩
    stumble := fun _ h => ⟨by rw [h.1], h.2.advance.complainAt _ _⟩ }

/-- The function around goes on. -/
def leave (s : Compilation) : Compilation :=
  match s.around with
  | c :: cs => { s with context := c, around := cs }
  | [] => s

theorem Tracks.enter {n : Nat} {s : Compilation} (hs : s.Tracks n) (name : String) :
    ((Comp.beginFunction name).run s).2.Tracks (n + 1) := by
  have hplan : ((Comp.beginFunction name).run s).2.plan = s.plan.step (.enter (some name)) :=
    Tracks.plan_push s _
  refine ⟨congrArg (· + 1) hs.length_eq, ?_, hplan ▸ hs.straight, ?_⟩
  · rw [hplan]
    exact congrArg (_ :: ·) hs.begun
  · intro b hb
    rcases Array.mem_push.1 hb with hb | rfl
    · exact hs.literal b hb
    · trivial

/-- A function that is complete joins the constants of the one around it, on both sides. -/
theorem Tracks.ended {n : Nat} {e : Compilation} (he : e.Tracks (n + 1)) :
    ((Comp.poolIndex (.function e.context.proto)).run
      (leave { e with
        builds := e.builds.push (.leave e.context.proto e.diagnostics.isEmpty) })).2.Tracks n := by
  obtain ⟨p, ps, hplan, hp, hps⟩ := he.exists_begun
  have hlength := he.length_eq
  cases haround : e.around with
  | nil =>
    rw [haround] at hlength
    cases hlength
  | cons c cs =>
    rw [haround] at hlength hps
    cases ps with
    | nil => cases hps
    | cons outer ps =>
      obtain ⟨houter, hps⟩ := List.cons.inj hps
      have hstep := plan_push e (.leave e.context.proto e.diagnostics.isEmpty)
      rw [hplan] at hstep
      simp only [Plan.step, Plan.complete, Proto.eq_proto hp] at hstep
      have hadded : ({ e with
          context := c.addConstant (.function e.context.proto)
          around := cs
          builds := e.builds.push (.leave e.context.proto e.diagnostics.isEmpty) } :
            Compilation).Tracks n := by
        refine ⟨Nat.succ.inj hlength, ?_, congrArg Plan.astray hstep, ?_⟩
        · obtain ⟨hname, hconstants⟩ := Prod.mk.inj houter
          refine (congrArg (·.begun.map Proto.stock) hstep).trans ?_
          simp only [List.map_cons, hps, Proto.stock, Proto.add, Context.stock, Context.addConstant,
            Chunk.addConstant, Array.toList_push, hname, hconstants]
        · intro b hb
          rcases Array.mem_push.1 hb with hb | rfl
          · exact he.literal b hb
          · trivial
      have := tracks_heard
      exact Comp.lasting_run (x := Comp.operandAt c.chunk.constants.size) hadded

theorem tracks_nest (name : String) {x y : Comp Unit} (hxy : Comp.Abreast (Shared Tracks) x y) :
    Comp.Abreast (Shared Tracks) (Comp.makeFunction name x) (Comp.makeFunction name y) := by
  have := tracks_heard
  refine ⟨fun {n s t} hst => ?_⟩
  obtain ⟨rfl, hs⟩ := hst
  have hbody : Comp.Abreast (Shared Tracks) (x >>= fun _ => Comp.emitReturn)
    (y >>= fun _ => Comp.emitReturn) := inferInstance
  obtain ⟨-, heq, he⟩ := hbody.run ⟨rfl, hs.enter name⟩
  generalize hended : ((x >>= fun _ => Comp.emitReturn).run ((Comp.beginFunction name).run t).2).2 =
    e at heq he
  -- what is left to do after the body, which came to the same on both sides
  have hrun : ∀ z : Comp Unit,
    ((z >>= fun _ => Comp.emitReturn).run ((Comp.beginFunction name).run t).2).2 = e →
      (Comp.makeFunction name z).run t = (do
        let index ← Comp.poolIndex (.function e.context.proto)
        Comp.emitWith .closure index
        Comp.emitCaptures e.context.captures.toList : Comp Unit).run
          (leave { e with
            builds := e.builds.push (.leave e.context.proto e.diagnostics.isEmpty) }) := by
    rintro z rfl
    rfl
  rw [hrun x hended, hrun y heq]
  have hclosure : ∀ index, Comp.Kept (Shared Tracks) (do
      Comp.emitWith .closure index
      Comp.emitCaptures e.context.captures.toList : Comp Unit) := fun _ => inferInstance
  exact ⟨rfl, rfl, ((hclosure _).run ⟨rfl, he.ended⟩).2.2⟩

instance whole_tracks : Whole (Shared Tracks) :=
  { tracks_heard with
    edit := fun h hc =>
      ⟨by rw [h.1], h.2.of_stock (congrArg (fun p => (p.1, p.2.2.constants.toList)) hc) rfl rfl⟩
    advance := fun h => ⟨by rw [h.1], h.2.advance⟩
    calm := fun h => ⟨by rw [h.1], h.2.of_stock rfl rfl rfl⟩
    count := Comp.kept_modify fun h => ⟨by rw [h.1], h.2.of_stock rfl rfl rfl⟩
    nest := fun name _ _ => tracks_nest name }

theorem tracks_start (ts : List Token) : (start ts).Tracks 0 :=
  ⟨rfl, rfl, rfl, by simp [start, Build.Literal]⟩

end Compilation

theorem compileTokens_tracks (ts : List Token) : ∃ (e : Compilation) (clean : Bool), e.Tracks 0 ∧
    (compileTokens ts).script = e.context.proto ∧
    (compileTokens ts).builds = e.builds.toList ++ [.leave e.context.proto clean] := by
  have := Comp.fellows_parse (A := Compilation.Shared Compilation.Tracks) (8 * (ts.length + 2))
  have hscript : Comp.Kept (Compilation.Shared Compilation.Tracks) (do
    Comp.advance
    Comp.parse (8 * (ts.length + 2)) .program
    Comp.emitReturn : Comp Unit) := by infer_instance
  exact ⟨_, _, (hscript.run ⟨rfl, Compilation.tracks_start ts⟩).2.2, rfl, Array.toList_push ..⟩

/-- **The steps of every compilation** come to its script, in a source that is refused too: every
function that is begun is ended, and each name has the index that is in the code. -/
theorem compileTokens_plan (ts : List Token) :
    (compileTokens ts).builds.foldl Plan.step {} = { script := some (compileTokens ts).script } := by
  obtain ⟨e, clean, he, hscript, hbuilds⟩ := compileTokens_tracks ts
  obtain ⟨p, ps, hplan, hp, hps⟩ := he.exists_begun
  rw [List.length_eq_zero_iff.1 he.length_eq, List.map_nil, List.map_eq_nil_iff] at hps
  subst hps
  rw [hbuilds, List.foldl_concat, hscript]
  show e.plan.step _ = _
  rw [hplan]
  simp only [Plan.step, Plan.complete, Proto.eq_proto hp]

/-- **The steps of every compilation are literal.** -/
theorem compileTokens_literal (ts : List Token) : ∀ b ∈ (compileTokens ts).builds, b.Literal := by
  obtain ⟨e, clean, he, -, hbuilds⟩ := compileTokens_tracks ts
  rw [hbuilds]
  simpa [or_imp, forall_and, Build.Literal] using he.literal

/-- **Every function that is begun is ended**, in a source that is refused too. -/
theorem compileTokens_balanced (ts : List Token) :
    (compileTokens ts).builds.foldl Build.depth 0 = 0 := by
  have hlength := Plan.length_foldl (compileTokens ts).builds {}
  rw [compileTokens_plan] at hlength
  exact hlength.symm

/-! ## Complaints -/

namespace Compilation

/-- Where nothing was complained about, no complaint is held back. -/
def Sober (s : Compilation) : Prop := s.Clean → s.panicking = false

/-- Some complaint says that the text ended too early. -/
def Cut (s : Compilation) : Prop := ∃ d ∈ s.diagnostics, d.isIncomplete = true

/-- A complaint is never taken back. -/
structure KeepsComplaints (s s' : Compilation) : Prop where
  clean : s'.Clean → s.Clean
  sober : s.Sober → s'.Sober
  cut : s.Cut → s'.Cut

instance isPreorder_keepsComplaints : IsPreorder Compilation KeepsComplaints where
  refl _ := ⟨id, id, id⟩
  trans _ _ _ h h' :=
    ⟨fun hc => h.clean (h'.clean hc), fun hs => h'.sober (h.sober hs), fun hs => h'.cut (h.cut hs)⟩

theorem keeps_complainAt (s : Compilation) (t : Token) (c : Complaint) :
    s.KeepsComplaints (s.complainAt t c) := by
  refine ⟨fun h => (complainAt_clean h).1, fun hs h => ?_, fun ⟨d, hd, hcut⟩ => ?_⟩
  · have := complainAt_clean h
    exact absurd (hs this.1) (by simp [this.2])
  · unfold complainAt
    split
    · exact ⟨d, hd, hcut⟩
    · exact ⟨d, Array.mem_push_of_mem _ hd, hcut⟩

theorem keeps_fetch (s : Compilation) (ts : List Token) : s.KeepsComplaints (s.fetch ts) := by
  induction ts generalizing s with
  | nil => exact ⟨id, id, id⟩
  | cons t ts ih =>
    rw [fetch]
    split
    · exact Trans.trans (keeps_complainAt s _ _) (ih _)
    · exact ⟨id, id, id⟩

theorem keeps_advance (s : Compilation) : s.KeepsComplaints s.advance := by
  unfold advance
  dsimp only
  split
  · exact ⟨id, id, id⟩
  · have hfetch := keeps_fetch { s with previous := s.current } s.rest
    exact ⟨hfetch.clean, hfetch.sober, hfetch.cut⟩

instance lasting_keepsComplaints : Lasting KeepsComplaints where
  write _ _ _ h := ⟨h.clean, h.sober, h.cut⟩
  complain c h := Trans.trans h (keeps_complainAt _ _ c)
  complainHere c h := Trans.trans h (keeps_complainAt _ _ c)
  advance h := Trans.trans h (keeps_advance _)
  calm h := ⟨h.clean, fun _ _ => rfl, h.cut⟩

end Compilation

namespace Comp

variable {α : Type} {x : Comp α} {P : Compilation → Prop} {Q : α → Compilation → Prop}
  [hx : Obeys Compilation.KeepsComplaints x]

/-- What cannot happen needs no care. -/
theorem Triple.never (hP : ∀ s, ¬ P s) : Triple P x Q :=
  fun s h hs => (hP s (h ((hx.run s).clean hs))).elim

theorem Triple.given {φ : Prop} (h : φ → Triple P x Q) : Triple (fun s => φ ∧ P s) x Q := by
  by_cases hφ : φ
  · exact (h hφ).pre fun s hs => hs.2
  · exact never fun s hs => hφ hs.1

end Comp

end Parlance
