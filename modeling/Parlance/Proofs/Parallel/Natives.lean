/-
  Natives on two machines side by side.
-/
import Parlance.Proofs.Machine.Natives
import Parlance.Proofs.Parallel.Steps

namespace Parlance.Native

variable {B : Bond} {β β' : Pairing} {m1 m2 : Machine} {v w : Value} {h1 h2 : Heap}

/-- The same message, or answers that correspond. -/
inductive Agree {α α' : Type} (R : α → α' → Prop) : Except String α → Except String α' → Prop
  | error (e : String) : Agree R (.error e) (.error e)
  | ok {a : α} {a' : α'} : R a a' → Agree R (.ok a) (.ok a')

/-- Arguments that correspond. -/
inductive Argument.Share (β : Pairing) (h1 h2 : Heap) : Argument → Argument → Prop
  | number (x : Float) : Share β h1 h2 (.number x) (.number x)
  | whole (n : Int) : Share β h1 h2 (.whole n) (.whole n)
  | text (s : String) : Share β h1 h2 (.text s) (.text s)
  | truth (b : Bool) : Share β h1 h2 (.truth b) (.truth b)
  | any {v w : Value} : Heap.Share β h1 h2 v w → Share β h1 h2 (.any v) (.any w)

/-- Results that correspond. -/
inductive Result.Share (β : Pairing) (h1 h2 : Heap) : Result → Result → Prop
  | nothing : Share β h1 h2 .nothing .nothing
  | number (x : Float) : Share β h1 h2 (.number x) (.number x)
  | whole (n : Int) : Share β h1 h2 (.whole n) (.whole n)
  | text (s : String) : Share β h1 h2 (.text s) (.text s)
  | truth (b : Bool) : Share β h1 h2 (.truth b) (.truth b)
  | any {v w : Value} : Heap.Share β h1 h2 v w → Share β h1 h2 (.any v) (.any w)

/-! ## Arguments -/

theorem convert_reads (hm : m1.Alike B none β m2) (k : Kind) (hvw : m1.Shares β m2 v w) :
    Exec.Reads (convert k v) (convert k w) m1 m2 (Agree (Argument.Share β m1.heap m2.heap)) := by
  -- both say the same of what was given
  have hrefused : ∀ {x y : Exec String} (e : String → String), Exec.Reads x y m1 m2 (· = ·) →
      Exec.Reads (do pure (.error (e (← x)))) (do pure (.error (e (← y)))) m1 m2
        (Agree (Argument.Share β m1.heap m2.heap)) := by
    intro x y e hxy
    refine .bind hxy ?_
    rintro s _ rfl
    exact .pure (.error (e s))
  have htype := fun what : String =>
    hrefused (fun t => "type incorrect : " ++ what ++ ", reçu " ++ t) (hm.typeName hvw)
  have htext := fun what : String =>
    hrefused (fun t => "type incorrect : " ++ what ++ ", reçu " ++ t) (hm.text hvw)
  unfold convert
  dsimp only
  cases k with
  | number =>
    cases hvw.alike with
    | number x => exact .pure (.ok (.number x))
    | _ => exact htype _
  | whole =>
    cases hvw.alike with
    | number x =>
      dsimp only
      split
      · exact .pure (.ok (.whole _))
      · exact htext _
    | _ => exact htext _
  | text =>
    cases hvw.alike with
    | @object a b hab =>
      have hchars : m1.heap.chars? a = m2.heap.chars? b := hm.heap.chars?_eq hab hvw.left hvw.right
      refine .get_bind ?_
      rw [hchars]
      cases m2.heap.chars? b with
      | some s => exact .pure (.ok (.text s))
      | none => exact htype _
    | _ => exact htype _
  | truth =>
    cases hvw.alike with
    | bool b => exact .pure (.ok (.truth b))
    | _ => exact htype _
  | _ => exact .pure (.ok (.any hvw))

/-- Corresponding arguments are converted alike. -/
theorem convertAll_reads (hm : m1.Alike B none β m2) (ks : List Kind) {vs ws : List Value}
    (hvs : List.Forall₂ (m1.Shares β m2) vs ws) (position : Nat) :
    Exec.Reads (convertAll position ks vs) (convertAll position ks ws) m1 m2
      (Agree (List.Forall₂ (Argument.Share β m1.heap m2.heap))) := by
  induction ks generalizing vs ws position with
  | nil =>
    unfold convertAll
    exact .pure (.ok .nil)
  | cons k ks ih =>
    cases hvs with
    | nil => exact .fault
    | cons hvw htail =>
      rw [convertAll, convertAll]
      refine .bind (convert_reads hm k hvw) ?_
      rintro _ _ (e | hab)
      · exact .pure (.error _)
      · refine .bind (ih htail (position + 1)) ?_
        rintro _ _ (e | has)
        · exact .pure (.error e)
        · exact .pure (.ok (.cons hab has))

/-! ## Host functions -/

/-- The function cannot tell machines apart that are alike. -/
def HostFunction.Blind (B : Bond) (f : HostFunction) : Prop :=
  ∀ {β : Pairing} {m1 m2 : Machine} {as bs : List Argument}, m1.Alike B none β m2 →
    List.Forall₂ (Argument.Share β m1.heap m2.heap) as bs →
    Exec.Along B β (f.run as) (f.run bs) m1 m2 fun β' r s n1 n2 => n1.Alike B none β' n2 ∧
      Agree (Result.Share β' n1.heap n2.heap) r s

theorem Result.along_toValue (hB : B.Lawful) (hm : m1.Alike B none β m2) {r s : Result}
    (hrs : Result.Share β m1.heap m2.heap r s) :
    Exec.Along B β r.toValue s.toValue m1 m2 fun β' v w n1 n2 =>
      n1.Alike B none β' n2 ∧ n1.Shares β' n2 v w := by
  cases hrs with
  | nothing => exact .pure ⟨hm, .nul, trivial, trivial⟩
  | number x => exact .pure ⟨hm, .number x, trivial, trivial⟩
  | whole n => exact .pure ⟨hm, .number _, trivial, trivial⟩
  | truth b => exact .pure ⟨hm, .bool b, trivial, trivial⟩
  | any hvw => exact .pure ⟨hm, hvw⟩
  | text t =>
    obtain ⟨k, l, h1, h2, heq1, heq2, hi1, hi2, hn⟩ := hm.intern hB t
    refine .from_le (β.le_add k.ref l.ref) (.bind_ok (Exec.intern_run heq1) (Exec.intern_run heq2) ?_)
    exact .pure ⟨hn, .object (β.add_self _ _), hi1.live_key, hi2.live_key⟩

/-- **A blind host function makes a blind native.** -/
theorem HostFunction.Blind.routine (hB : B.Lawful) {f : HostFunction} (hf : f.Blind B) (arity : Int) :
    B.Blind arity f.routine := by
  intro name β m1 m2 vs ws hm hvs hv hw _
  have hshare : List.Forall₂ (m1.Shares β m2) vs ws :=
    forall₂_imp_of_mem hvs fun ha hb hab =>
      ⟨hab, Slots.stack_lawful.live hm.sound₁ (hv _ ha), hB.right.live hm.sound₂ (hw _ hb)⟩
  unfold HostFunction.routine
  refine (convertAll_reads hm f.signature.arguments hshare 1).sync_bind hm ?_
  rintro _ _ (e | has)
  · exact .pure ⟨hm, .error _⟩
  · refine (hf hm has).bind ?_
    rintro β' _ _ n1 n2 - ⟨hn, e | hrs⟩
    · exact .pure ⟨hn, .error _⟩
    · refine (Result.along_toValue hB hn hrs).bind ?_
      rintro β'' v w k1 k2 - ⟨hk, hvw⟩
      exact .pure ⟨hk, .ok hvw⟩

/-! ## The natives of the language -/

theorem HostFunction.blind_of_reads {f : HostFunction}
    (h : ∀ {β : Pairing} {m1 m2 : Machine} {as bs : List Argument}, m1.Alike B none β m2 →
      List.Forall₂ (Argument.Share β m1.heap m2.heap) as bs →
      Exec.Reads (f.run as) (f.run bs) m1 m2 (Agree (Result.Share β m1.heap m2.heap))) : f.Blind B :=
  fun hm has => (h hm has).sync hm fun hrs => ⟨hm, hrs⟩

theorem onNumber_blind (f : Float → Float) : (onNumber f).Blind B := by
  refine HostFunction.blind_of_reads ?_
  rintro β m1 m2 _ _ hm (_ | ⟨_ | _ | _ | _ | _, _ | _⟩)
  all_goals first | exact .pure (.ok (.number _)) | exact .fault

theorem onNumbers_blind (f : Float → Float → Float) : (onNumbers f).Blind B := by
  refine HostFunction.blind_of_reads ?_
  rintro β m1 m2 _ _ hm (_ | ⟨_ | _ | _ | _ | _, _ | ⟨_ | _ | _ | _ | _, _ | _⟩⟩)
  all_goals first | exact .pure (.ok (.number _)) | exact .fault

theorem onText_blind (f : String → String) : (onText f).Blind B := by
  refine HostFunction.blind_of_reads ?_
  rintro β m1 m2 _ _ hm (_ | ⟨_ | _ | _ | _ | _, _ | _⟩)
  all_goals first | exact .pure (.ok (.text _)) | exact .fault

theorem onAny_blind {f : Value → Exec String}
    (hf : ∀ {β : Pairing} {m1 m2 : Machine} {v w : Value}, m1.Alike B none β m2 → m1.Shares β m2 v w →
      Exec.Reads (f v) (f w) m1 m2 (· = ·)) : (onAny f).Blind B := by
  refine HostFunction.blind_of_reads ?_
  rintro β m1 m2 _ _ hm (_ | ⟨_ | _ | _ | _ | hvw, _ | _⟩)
  all_goals try exact .fault
  refine .bind (hf hm hvw) ?_
  rintro s _ rfl
  exact .pure (.ok (.text s))

theorem lengthOf_blind : lengthOf.Blind B := by
  refine HostFunction.blind_of_reads ?_
  rintro β m1 m2 _ _ hm (_ | ⟨_ | _ | _ | _ | _, _ | _⟩)
  all_goals first | exact .pure (.ok (.whole _)) | exact .fault

theorem squareRoot_blind : squareRoot.Blind B := by
  refine HostFunction.blind_of_reads ?_
  rintro β m1 m2 _ _ hm (_ | ⟨_ | _ | _ | _ | _, _ | _⟩)
  all_goals try exact .fault
  simp only [squareRoot]
  split
  · exact .pure (.error _)
  · exact .pure (.ok (.number _))

theorem toNumber_reads (hm : m1.Alike B none β m2) (hvw : m1.Shares β m2 v w) :
    Exec.Reads (toNumber v) (toNumber w) m1 m2 (Agree (Result.Share β m1.heap m2.heap)) := by
  have hnot : Exec.Reads
      (do pure (.error ("impossible de convertir une valeur de type '" ++ (← Exec.typeName v) ++
        "' en nombre")))
      (do pure (.error ("impossible de convertir une valeur de type '" ++ (← Exec.typeName w) ++
        "' en nombre")))
      m1 m2 (Agree (Result.Share β m1.heap m2.heap)) := by
    refine .bind (hm.typeName hvw) ?_
    rintro t _ rfl
    exact .pure (.error _)
  unfold toNumber
  cases hvw.alike with
  | number x => exact .pure (.ok (.number x))
  | bool b => exact .pure (.ok (.number _))
  | nul => exact hnot
  | @object a b hab =>
    have hchars : m1.heap.chars? a = m2.heap.chars? b := hm.heap.chars?_eq hab hvw.left hvw.right
    dsimp only
    refine .get_bind (.bind (.pure hchars) ?_)
    rintro chars _ rfl
    cases chars with
    | none => exact hnot
    | some s =>
      dsimp only
      cases Number.read? (Text.trimBlanks s) with
      | some x => exact .pure (.ok (.number x))
      | none => exact .pure (.error _)

theorem numberOf_blind : numberOf.Blind B := by
  refine HostFunction.blind_of_reads ?_
  rintro β m1 m2 _ _ hm (_ | ⟨_ | _ | _ | _ | hvw, _ | _⟩)
  all_goals first | exact .fault | exact toNumber_reads hm hvw

theorem supply_blind {f : Exec Float} (hf : ∀ {β : Pairing} {m1 m2 : Machine}, m1.Alike B none β m2 →
      Exec.Along B β f f m1 m2 fun β' x y n1 n2 => n1.Alike B none β' n2 ∧ x = y) :
        (supply f).Blind B := by
  intro β m1 m2 as bs hm _
  refine (hf hm).bind ?_
  rintro β' x _ n1 n2 - ⟨hn, rfl⟩
  exact .pure ⟨hn, .ok (.number x)⟩

theorem along_readClock (hm : m1.Alike B none β m2) :
    Exec.Along B β readClock readClock m1 m2 fun β' x y n1 n2 => n1.Alike B none β' n2 ∧ x = y := by
  have hclock : Float.ofNat (m1.clock + 1) / 1000000 = Float.ofNat (m2.clock + 1) / 1000000 := by
    rw [hm.clock]
  refine .of_ok rfl rfl (fun h => h) ⟨?_, hclock⟩
  exact { hm with
    sound₁ := { hm.sound₁ with }
    sound₂ := { hm.sound₂ with }
    clock := congrArg (· + 1) hm.clock }

theorem along_drawNumber (hm : m1.Alike B none β m2) :
    Exec.Along B β drawNumber drawNumber m1 m2 fun β' x y n1 n2 => n1.Alike B none β' n2 ∧ x = y := by
  unfold drawNumber
  refine .get_bind ?_
  rw [hm.seed]
  refine .bind_ok (x := modify _) (y := modify _) rfl rfl (.pure ⟨?_, rfl⟩)
  exact { hm with
    sound₁ := { hm.sound₁ with }
    sound₂ := { hm.sound₂ with }
    seed := rfl }

theorem host_builtin {i : Nat} {b : Builtin} (hb : builtins[i]? = some b) :
    builtinLibrary.host[i]? = some b.function.routine := by
  simp [Library.host, builtinLibrary, hb, Offer.toRoutine]

/-- **No native of the language can tell machines apart that are alike.** -/
theorem builtins_blind {b : Builtin} (hb : b ∈ builtins) : b.function.Blind B := by
  revert b
  simp only [builtins, List.forall_mem_cons, List.not_mem_nil, false_imp_iff, implies_true, and_true]
  and_intros
  all_goals
    first
      | exact onNumber_blind _
      | exact onNumbers_blind _
      | exact onText_blind _
      | exact lengthOf_blind
      | exact numberOf_blind
      | exact squareRoot_blind
      | exact onAny_blind fun hm hvw => hm.text hvw
      | exact onAny_blind fun hm hvw => hm.typeName hvw
      | exact supply_blind along_readClock
      | exact supply_blind along_drawNumber

end Parlance.Native
