/-
  Whole sources.
-/
import Parlance.Proofs.Compiler.Rounds
import Parlance.Proofs.Compiler.Statements

namespace Parlance

namespace Comp

open Compilation

theorem meets_giveUp : Meets giveUp where
  expression _ := fun _ => complainHere_spec (fun _ hs => hs.calm) _
  operators _ _ := complainHere_spec (fun _ hs => hs.calm) _
  arguments := fun _ => complainHere_spec (fun _ hs => hs.2.calm) _
  printed := fun _ => complainHere_spec (fun _ hs => hs.2.calm) _
  parameters := complainHere_spec (fun _ hs => hs.2.calm) _
  statement := fun _ => complainHere_spec (fun _ hs => hs.calm) _
  declaration := fun _ => complainHere_spec (fun _ hs => hs.calm) _
  block := fun _ => complainHere_spec (fun _ hs => hs.calm) _
  caseBody := fun _ => complainHere_spec (fun _ hs => hs.calm) _
  program := fun _ => complainHere_spec (fun _ hs => hs.calm) _
  clauses hk := complainHere_spec (fun _ hs => hs.calm hk) _

theorem meets_round {self : Recur} (hself : Meets self) : Meets (round self) where
  expression := parseExpression_spec hself
  operators hp := parseOperators_spec hself hp _
  arguments := parseArguments_spec hself _
  printed := parsePrinted_spec hself _
  parameters := parseParameters_spec hself
  statement := parseStatement_spec hself
  declaration := parseDeclaration_spec hself
  block := parseBlock_spec hself
  caseBody := parseCaseBody_spec hself
  program := parseProgram_spec hself
  clauses hk := parseClauses_spec hself hk

/-- The parser meets its goals, if it complains when its rounds are over. -/
theorem meets_parseFrom (fuel : Nat) : Meets (parseFrom giveUp fuel) := by
  induction fuel with
  | zero => exact meets_giveUp
  | succ fuel ih => exact meets_round ih

end Comp

/-! ## Scripts -/

theorem Context.settled_start : Context.Settled {} [] [] 1 where
  height := rfl
  pos := Nat.le_refl 1
  small := show 1 ≤ 256 by omega
  ready d hd := ⟨0, Nat.le_refl 0, by simpa [Context.outline] using hd⟩
  nest := .nil
  counts := by simp [Context.outline]
  pending := by simp

theorem Compilation.stands_start (ts : List Token) : Stands {} [] [] [] 1 (.start ts) where
  calm := rfl
  kept := .refl _
  around := .nil
  chain := ⟨Context.tame_start none, rfl, trivial⟩
  drafted := Context.drafted_empty rfl rfl (Nat.zero_le _)

theorem Comp.script_spec {parser : Recur} (hparser : Meets parser) :
    Comp.Triple (Compilation.Stands {} [] [] [] 1)
      (script parser) fun p _ => p.Sound ∧ p.upvalueCount = 0 := by
  refine advance_spec.bind fun _ => (hparser.program Context.settled_start).bind fun _ =>
    Triple.ex fun ls => ?_
  refine (finishFunction_spec (Context.settled_start.declare ls).base (Nat.zero_le _) rfl).post ?_
  rintro p s ⟨hsound, rfl, hs⟩
  have haround : s.around = [] := List.forall₂_nil_left_iff.1 hs.around
  have hcaptures : s.context.captures = #[] := by
    have := hs.chain.2.1
    rw [haround] at this
    exact this
  exact ⟨hsound, by simp [Context.proto_upvalueCount, hcaptures]⟩

/-- The script of a source without a fault is sound and captures nothing. -/
theorem compileTokens_spec {ts : List Token} {p : Proto} (h : (compileTokens ts).result = .ok p) :
    p.Sound ∧ p.upvalueCount = 0 := by
  rw [compileTokens_eq_parseFrom Comp.giveUp ts (Nat.le_refl _)] at h
  unfold Compiled.result at h
  split at h
  · rename_i hempty
    cases h
    exact (Comp.script_spec (Comp.meets_parseFrom _) _ (fun _ => Compilation.stands_start ts)
      (by simpa [Compilation.Clean, Compiled.ofRun] using hempty)).2
  · cases h

/-! ## Functions in functions -/

/-- A function, or one among its constants, or one among theirs, and so on. -/
inductive Proto.Within : Proto → Proto → Prop
  | refl (p : Proto) : p.Within p
  | nested {p q r : Proto} : Constant.function q ∈ p.constants → r.Within q → r.Within p

theorem Proto.Sound.within {p q : Proto} (hp : p.Sound) (hq : q.Within p) : q.Sound := by
  induction hq with
  | refl => exact hp
  | nested hmem _ ih =>
    cases hp with
    | intro t assembled nested => exact ih (nested _ hmem)

/-- Whatever the source, if it compiles then the verifier accepts the script and every function in
it: each has a chart that gives every instruction one window, cuts the code into whole instructions,
and leads from instruction to instruction. -/
theorem compile_verified (file source : String) {p : Proto} (h : (compile file source).result = .ok p)
    {q : Proto} (hq : q.Within p) : q.verify = .ok () ∧ ∃ t, q.Assembled t := by
  have hsound : q.Sound := (compileTokens_spec h).1.within hq
  refine ⟨hsound.verify, ?_⟩
  cases hsound with
  | intro t assembled nested => exact ⟨t, assembled⟩

/-- A closure over a parameter, and a loop that is left. -/
def sampleSource : String :=
  "fonction f(x) \x7b fonction g() \x7b retourner x; \x7d retourner g; \x7d tantque (vrai) quitter;"

theorem compile_verified_sample : ∃ p q : Proto, (compile "essai" sampleSource).result = .ok p ∧
    Constant.function q ∈ p.constants ∧ q.verify = .ok () ∧ ∃ t, q.Assembled t := by
  have hsome : ((compile "essai" sampleSource).result.toOption.bind fun p =>
      p.constants.find? fun k => (Constant.pool.captures? k).isSome).isSome = true := by
    decide +kernel
  cases hr : (compile "essai" sampleSource).result with
  | error e => simp [hr, Except.toOption] at hsome
  | ok p =>
    rw [hr] at hsome
    obtain ⟨k, hk⟩ := Option.isSome_iff_exists.1 hsome
    have hmem : k ∈ p.constants := List.mem_of_find?_eq_some hk
    cases k with
    | function q => exact ⟨p, q, rfl, hmem, compile_verified _ _ hr (.nested hmem (.refl q))⟩
    | _ => exact absurd (List.find?_some hk) (by simp [Constant.pool])

end Parlance
