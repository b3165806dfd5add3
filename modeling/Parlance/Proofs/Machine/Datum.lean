/-
  Values by what they mean.
-/
import Parlance.Proofs.Machine.Moves

namespace Parlance

/-- What a value means to a script. A function is known by its identity and its text, a native by
what it is. -/
inductive Datum where
  | nul
  | bool (b : Bool)
  | number (x : Float)
  | text (s : String)
  | native (r : Ref) (n : Native)
  | function (r : Ref) (shown : String)
  deriving Inhabited

/-! ## Values on a heap -/

namespace Heap

variable {h h' : Heap} {v : Value}

/-- The meaning of a value. -/
def datum (h : Heap) : Value → Datum
  | .nul => .nul
  | .bool b => .bool b
  | .number x => .number x
  | .object r =>
    match h.object? r with
    | some (.text s _) => .text s
    | some (.native n) => .native r n
    | _ => .function r ((h.text? (.object r)).getD "")

section

variable (hkeep : ∀ {x}, h.Live x → h'.Live x → h'.object? x = h.object? x) (hs : h.Sound)
  (hs' : h'.Sound)
include hkeep hs hs'

theorem functionText_kept {r : Ref} {f : Function} (hl : h.Live r) (hl' : h'.Live r)
    (hr : h.object? r = some (.function f)) : h'.functionText f = h.functionText f := by
  have hname : h'.nameOf f = h.nameOf f := by
    unfold nameOf
    cases hn : f.name with
    | none => rfl
    | some y =>
      have hy : y ∈ (Object.function f).children := List.mem_append.2 (Or.inl (by simp [hn]))
      simp only [Option.bind_some, chars?, hkeep (hs.closed hl hr y hy)
        (hs'.closed hl' ((hkeep hl hl').trans hr) y hy)]
  simp only [functionText, hname]

/-- What stays on the heap keeps its meaning. -/
theorem datum_kept (hv : h.LiveValue v) (hv' : h'.LiveValue v) : h'.datum v = h.datum v := by
  cases v with
  | object r =>
    have hr : h'.object? r = h.object? r := hkeep hv hv'
    have htext : h'.text? (.object r) = h.text? (.object r) := by
      obtain ⟨o, ho⟩ := Live.exists_object? hv
      simp only [text?, hr, ho, Option.bind_some]
      cases o with
      | function f => exact congrArg some (functionText_kept hkeep hs hs' hv hv' ho)
      | closure f us =>
        cases f with
        | none => rfl
        | some x =>
          have hx := hs.closed hv ho x (by simp [Object.children])
          have hx' := hs'.closed hv' (hr.trans ho) x (by simp [Object.children])
          simp only [objectText?, Option.bind_some, function?, hkeep hx hx']
          split
          · rename_i f hf
            exact congrArg some (functionText_kept hkeep hs hs' hx hx' hf)
          · rfl
      | _ => rfl
    simp only [datum, hr, htext]
  | _ => rfl

end

end Heap

/-! ## Globals -/

/-- Globals by their names. -/
abbrev Globals := String → Option Datum

namespace Machine

variable {m : Machine} {name : String} {v : Value}

/-- The meaning of the globals. -/
def data (m : Machine) : Globals := fun name => (m.global? name).map m.heap.datum

theorem Sound.global?_eq_some_iff (hm : m.Sound) :
    m.global? name = some v ↔ ∃ k : Symbol, k.text = name ∧ m.globals.Holds k v := by
  have hfind : ∀ k, m.heap.strings.findText? name (hashText name) = some k ↔ k.text = name ∧
      ∃ u, m.heap.strings.Holds k u := by
    intro k
    refine hm.heap.valid.findText?_eq_some_iff ?_ ?_
    · intro k u hk
      obtain ⟨hl, ho⟩ := hm.heap.holds_iff.1 hk
      exact hm.heap.hash_eq hl ho
    · intro k u k' u' hk hk' htext
      obtain ⟨hl, ho⟩ := hm.heap.holds_iff.1 hk
      obtain ⟨hl', ho'⟩ := hm.heap.holds_iff.1 hk'
      have href := hm.heap.unique hl hl' ho (htext ▸ ho')
      have hhash : k.hash = k'.hash := by rw [hm.heap.hash_eq hl ho, hm.heap.hash_eq hl' ho', htext]
      cases k
      cases k'
      simp_all
  have hget : ∀ {k : Symbol}, m.heap.object? k.ref = some (.text k.text k.hash) →
      (m.globals.get? k = some v ↔ m.globals.Holds k v) :=
      fun ho => hm.table.get?_eq_some_iff (hm.knows ho)
  rw [global?, Option.bind_eq_some_iff]
  constructor
  · rintro ⟨k, hk, hv⟩
    obtain ⟨htext, u, hu⟩ := (hfind k).1 hk
    exact ⟨k, htext, (hget (hm.heap.holds_iff.1 hu).2).1 hv⟩
  · rintro ⟨k, htext, hv⟩
    obtain ⟨hl, ho, -⟩ := hm.globals hv
    have hu : m.heap.strings.Holds k () := hm.heap.holds_iff.2 ⟨hl, ho⟩
    exact ⟨k, (hfind k).2 ⟨htext, _, hu⟩, (hget ho).2 hv⟩

theorem data_kept {h' : Heap} (hm : m.Sound) (hm' : Sound { m with heap := h' })
    (hkeep : ∀ {x}, m.heap.Live x → h'.Live x → h'.object? x = m.heap.object? x) :
    data { m with heap := h' } = m.data := by
  funext name
  refine Option.ext fun d => ?_
  simp only [data, Option.map_eq_some_iff, hm.global?_eq_some_iff, hm'.global?_eq_some_iff]
  refine exists_congr fun v => and_congr_right ?_
  rintro ⟨k, -, hv⟩
  rw [Heap.datum_kept hkeep hm.heap hm'.heap (hm.globals hv).2.2 (hm'.globals hv).2.2]

end Machine

end Parlance
