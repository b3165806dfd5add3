/-
  The heights of an accepted function.
-/
import Parlance.Proofs.Code.Search

namespace Parlance

namespace Proto

variable {p : Proto}

/-- The heights found, as a chart on which any slot may be captured. -/
def heights (p : Proto) : Chart := fun o =>
  match checkHeights p.chunk p.arity with
  | .error _ => none
  | .ok k => ((k.known[o]?).join).map fun x => ⟨x.toNat, fun _ => True⟩

theorem check_spec (h : p.check = .ok ()) : p.lines.size = p.code.size ∧
    ∃ found k, decode p.chunk p.upvalueCount = .ok found ∧ checkHeights p.chunk p.arity = .ok k := by
  unfold check at h
  dsimp only at h
  split at h
  · cases h
  · rename_i hlines
    split at h
    · cases h
    · split at h
      · cases h
      · rename_i found hfound
        split at h
        · cases h
        · rename_i k hk
          exact ⟨by simpa [chunk] using hlines, found, k, hfound, hk⟩

/-- The checks have found the instruction `op` at `o`, and so many values on the frame before it. -/
def Notes (p : Proto) (o : Nat) (op : Op) (height : Nat) : Prop :=
  ∃ found k, decode p.chunk p.upvalueCount = .ok found ∧ checkHeights p.chunk p.arity = .ok k ∧
    (o, op) ∈ found ∧ k.known[o]? = some (some (height : Int))

/-- What the chart of an accepted function says of an instruction. -/
structure Noted (p : Proto) (o : Nat) (w : Window) (op : Op) (behind : Int) : Prop where
  notes : p.Notes o op w.height
  found : p.chunk.Found p.upvalueCount o op behind
  pops_lt : p.chunk.pops op o < w.height
  slots : checkSlots p.chunk op o behind w.height (p.chunk.after op o w).height = .ok ()
  next : ∀ d ∈ successors p.chunk op o behind, ∃ n : Nat, d = n ∧
    p.heights.Lands n (p.chunk.after op o w)

theorem heights_eq_some {k : Heights} (hk : checkHeights p.chunk p.arity = .ok k) {o : Nat} {x : Int}
    (hx : k.known[o]? = some (some x)) : p.heights o = some ⟨x.toNat, fun _ => True⟩ := by
  simp [heights, hk, hx]

theorem noted_of_heights (hcheck : p.check = .ok ()) (ha : 0 ≤ p.arity) (ha' : p.arity ≤ 255)
    {o : Nat} {w : Window} (hw : p.heights o = some w) : ∃ op behind, p.Noted o w op behind := by
  obtain ⟨-, found, k, hfound, hk⟩ := check_spec hcheck
  obtain ⟨hswept, hwork⟩ := checkHeights_spec hfound (.inr ⟨rfl, by omega⟩) hk
  simp only [heights, hk, Option.map_eq_some_iff, Option.join_eq_some_iff] at hw
  obtain ⟨x, hx, rfl⟩ := hw
  obtain ⟨⟨op, hmem⟩, -⟩ := hswept.noted hx
  obtain ⟨behind, hf, -⟩ := (decode_spec hfound).2 o op hmem
  obtain ⟨hpops, hslots, hnext⟩ := hswept.done hx (by simp [hwork]) id hf
  simp only [Chunk.leaves, id] at hpops hslots hnext
  obtain ⟨n, rfl⟩ := Int.eq_ofNat_of_zero_le (show 0 ≤ x by omega)
  have hafter : (n : Int) - p.chunk.pops op o + p.chunk.pushes op o =
    (n - p.chunk.pops op o + p.chunk.pushes op o : Nat) := by omega
  rw [hafter] at hslots hnext
  refine ⟨op, behind, ⟨found, k, hfound, hk, hmem, hx⟩, hf, show _ < n by omega, hslots,
    fun d hd => ?_⟩
  obtain ⟨n', hn', hknown⟩ := hnext d hd
  exact ⟨n', hn', _, heights_eq_some hk hknown, rfl, fun _ _ => trivial⟩

/-- **Accepted functions are charted.** -/
theorem charted_heights (hcheck : p.check = .ok ()) (ha : 0 ≤ p.arity) (ha' : p.arity ≤ 255) :
    p.Charted p.heights where
  entry := by
    obtain ⟨-, found, k, hfound, hk⟩ := check_spec hcheck
    have hzero := (checkHeights_spec hfound (.inr ⟨rfl, by omega⟩) hk).1.start
    exact ⟨_, heights_eq_some hk hzero, rfl, fun _ _ => trivial⟩
  fits hw := by
    obtain ⟨op, behind, hn⟩ := noted_of_heights hcheck ha ha' hw
    refine ⟨op, hn.found.op_eq, hn.pops_lt, hn.found.operandFits hn.slots, fun hs =>
      (hn.found.behind_eq hs).2, ?_⟩
    intro hs hop
    refine hn.found.capturesFit hop hs ?_
    have hslots := hn.slots
    subst hop
    exact_mod_cast hslots
  flows {o w op} hw hop hs d hd := by
    obtain ⟨op', behind, hn⟩ := noted_of_heights hcheck ha ha' hw
    obtain rfl : op' = op := Option.some.inj (hn.found.op_eq.symm.trans hop)
    rw [← Chunk.successors_eq, ← (hn.found.behind_eq hs).1] at hd
    exact hn.next d hd

end Proto

end Parlance
