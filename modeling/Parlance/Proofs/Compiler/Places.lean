/-
  Diagnostics stand in their source.
-/
import Parlance.Editor.Server
import Parlance.Proofs.Code.Decoding
import Parlance.Proofs.Compiler.Rounds
import Parlance.Proofs.Token.Coverage

namespace Parlance

variable {before : List Char} {ts : List Token}

/-! ## Lines -/

/-- The line on which a text goes on with `rest` behind `before`. -/
def lineAround (before rest : List Char) : List Char :=
  (before.reverse.takeWhile (· != '\n')).reverse ++ rest.takeWhile (· != '\n')

theorem splitOn_cons (c : Char) (cs : List Char) :
    (c :: cs).splitOn '\n' = if c = '\n' then [] :: cs.splitOn '\n' else
    (cs.splitOn '\n').modifyHead (c :: ·) := by
  simp only [List.splitOn, List.splitOnP_cons_eq_if_modifyHead, beq_iff_eq]

theorem splitOn_zero (cs : List Char) : (cs.splitOn '\n')[0]? = some (cs.takeWhile (· != '\n')) := by
  induction cs with
  | nil => rfl
  | cons c cs ih =>
    rw [splitOn_cons]
    by_cases hc : c = '\n'
    · simp [hc]
    · simp [hc, List.getElem?_modifyHead, ih]

theorem lineAround_cons {c : Char} (h : c = '\n' ∨ '\n' ∈ before) (rest : List Char) :
    lineAround (c :: before) rest = lineAround before rest := by
  unfold lineAround
  rw [List.reverse_cons, List.takeWhile_append]
  split
  · rename_i hlength
    have hall := (List.takeWhile_prefix (· != '\n')).eq_of_length hlength
    have hnone : ∀ x ∈ before, x ≠ '\n' := by simpa using hall
    rw [h.resolve_right fun hmem => hnone _ hmem rfl, hall]
    simp
  · rfl

theorem bne_newline {w : List Char} (h : '\n' ∉ w) : ∀ c ∈ w, (c != '\n') = true := by
  rintro c hc
  exact bne_iff_ne.2 fun heq => h (heq ▸ hc)

theorem lineAround_of_not_mem (h : '\n' ∉ before) (rest : List Char) :
    lineAround before rest = (before ++ rest).takeWhile (· != '\n') := by
  have hall := bne_newline h
  rw [lineAround, List.takeWhile_eq_self_iff.2 (by simpa using hall), List.reverse_reverse,
    List.takeWhile_append_of_pos hall]

theorem splitOn_count (before rest : List Char) :
    ((before ++ rest).splitOn '\n')[before.count '\n']? = some (lineAround before rest) := by
  induction before with
  | nil => simpa [lineAround] using splitOn_zero rest
  | cons c before ih =>
    rw [List.cons_append, splitOn_cons]
    by_cases hc : c = '\n'
    · rw [lineAround_cons (.inl hc), ← ih]
      simp [hc]
    by_cases hbefore : '\n' ∈ before
    · rw [lineAround_cons (.inr hbefore), ← ih]
      have hpos := List.count_pos_iff.2 hbefore
      simp [hc, List.getElem?_modifyHead, hpos.ne']
    · have hnone : '\n' ∉ c :: before := by simp [Ne.symm hc, hbefore]
      rw [lineAround_of_not_mem hnone, ← splitOn_zero, List.count_eq_zero.2 hnone, List.cons_append,
        splitOn_cons]

theorem lines_lineBehind {source : String} {before rest : List Char}
    (h : source.toList = before ++ rest) :
    (Text.lines source)[lineBehind before - 1]? = some (String.ofList (lineAround before rest)) := by
  rw [Text.lines, List.getElem?_map, h, lineBehind, Nat.add_sub_cancel, splitOn_count]
  rfl

theorem length_lineAround (before rest : List Char) :
    (lineAround before rest).length + 1 =
      columnBehind before + (rest.takeWhile (· != '\n')).length := by
  simp [lineAround, columnBehind]
  omega

/-! ## Places of tokens -/

/-- The place is that of characters on one line of the source, or of the end of the line. -/
def Location.Inside (source : String) (l : Location) : Prop :=
  1 ≤ l.line ∧ ∃ line, (Text.lines source)[(l.line - 1).toNat]? = some line ∧ 1 ≤ l.column ∧
    l.column ≤ line.length + 1 ∧
    ∀ last, l.lastColumn = some last → l.column ≤ last ∧ last ≤ line.length

variable {file source : String}

theorem inside_behind {before rest w : List Char} (h : source.toList = before ++ rest)
    (hw : w <+: rest) (last? : Option Int)
    (hlast : ∀ last, last? = some last → w ≠ [] ∧ '\n' ∉ w ∧
      last + 1 = columnBehind before + w.length) :
    Location.Inside source ⟨file, lineBehind before, columnBehind before, last?⟩ := by
  have hlength := length_lineAround before rest
  have hline : 0 < lineBehind before := Nat.succ_pos _
  have hcolumn : 0 < columnBehind before := Nat.succ_pos _
  refine ⟨Int.ofNat_le.2 hline, String.ofList (lineAround before rest), ?_, Int.ofNat_le.2 hcolumn,
    ?_, fun last hl => ?_⟩
  · rw [show ((lineBehind before : Int) - 1).toNat = lineBehind before - 1 by omega]
    exact lines_lineBehind h
  · rw [String.length_ofList]
    dsimp only
    omega
  · obtain ⟨hne, hnone, heq⟩ := hlast last hl
    have hprefix : w.length ≤ (rest.takeWhile (· != '\n')).length := by
      obtain ⟨rest, rfl⟩ := hw
      rw [List.takeWhile_append_of_pos (bne_newline hnone)]
      simp
    have hpos := List.length_pos_iff.2 hne
    rw [String.length_ofList]
    dsimp only
    omega

theorem Cursor.next_inside {c : Cursor} (hp : c.position = ({} : Position).after before)
    (h : source.toList = before ++ c.rest) : (c.next file).1.location.Inside source := by
  obtain ⟨g, rest, hrest, -, hbegins⟩ := @next_spec file c
  rw [hp, ← Position.after_append] at hbegins
  rw [hrest, ← List.append_assoc] at h
  generalize c.next file = r at hbegins
  obtain ⟨t, c'⟩ := r
  cases hbegins with
  | eof =>
    rw [Position.location, Position.after_eq]
    exact inside_behind h List.nil_prefix none (by simp)
  | fault =>
    rw [Position.location, Position.after_eq]
    exact inside_behind h List.nil_prefix none (by simp)
  | @token w rest' k s hw hspelling =>
    obtain rfl : rest = w ++ rest' := hw
    rw [extent_eq hspelling.ne_nil hspelling.getLast?_ne]
    refine inside_behind h (List.prefix_append _ _) _ fun last hlast => ?_
    split at hlast
    · rename_i hline
      have hnone : '\n' ∉ w := by
        rw [lineBehind_dropLast hspelling.getLast?_ne, lineBehind, lineBehind,
          List.count_append] at hline
        exact List.count_eq_zero.1 (by omega)
      have hpos := List.length_pos_iff.2 hspelling.ne_nil
      rw [columnBehind_append fun hmem => hnone ((List.dropLast_sublist w).subset hmem),
        List.length_dropLast] at hlast
      refine ⟨hspelling.ne_nil, hnone, ?_⟩
      obtain rfl := Option.some.inj hlast
      omega
    · cases hlast

theorem Cursor.Yields.inside {c : Cursor} (hts : c.Yields file ts)
    (hp : c.position = ({} : Position).after before) (h : source.toList = before ++ c.rest) :
    ∀ t ∈ ts, t.location.Inside source := by
  induction hts generalizing before with
  | last => simpa using next_inside hp h
  | @more c ts _ _ ih =>
    obtain ⟨x, -, hrest, hplace, -⟩ := @next_piece file c before hp
    rw [List.forall_mem_cons]
    exact ⟨next_inside hp h, ih hplace (by rw [h, hrest, List.append_assoc])⟩

/-- All tokens stand inside their source. -/
theorem tokens_inside (file source : String) : ∀ t ∈ tokens file source, t.location.Inside source :=
  (tokens_yields file source).inside (Eq.refl (({} : Position).after [])) rfl

theorem Cursor.Yields.exists_eof {c : Cursor} (h : c.Yields file ts) : ∃ t ∈ ts, t.kind = .eof := by
  induction h with
  | last h => simpa using h
  | more _ _ ih =>
    obtain ⟨t, ht, heof⟩ := ih
    exact ⟨t, List.mem_cons_of_mem _ ht, heof⟩

/-! ## Places of complaints -/

namespace Compilation

variable {P : Location → Prop} {s : Compilation}

/-- All places have the property `P`, that of the token before perhaps excepted. -/
structure Onset (P : Location → Prop) (s : Compilation) : Prop where
  current : P s.current.location
  rest : ∀ t ∈ s.rest, P t.location
  diagnostics : ∀ d ∈ s.diagnostics, P d.location

/-- All places have the property `P`. -/
structure Placed (P : Location → Prop) (s : Compilation) : Prop extends s.Onset P where
  previous : P s.previous.location

theorem complainAt_places (h : ∀ d ∈ s.diagnostics, P d.location) {t : Token} (ht : P t.location)
    (c : Complaint) : ∀ d ∈ (s.complainAt t c).diagnostics, P d.location := by
  unfold complainAt
  split
  · exact h
  · intro d hd
    rcases Array.mem_push.1 hd with hd | rfl
    · exact h d hd
    · exact ht

theorem Onset.complain (h : s.Onset P) {t : Token} (ht : P t.location) (c : Complaint) :
    (s.complainAt t c).Onset P := by
  refine ⟨?_, ?_, complainAt_places h.diagnostics ht c⟩
  · rw [complainAt_current]
    exact h.current
  · rw [complainAt_rest]
    exact h.rest

theorem onset_fetch (hts : ∀ t ∈ ts, P t.location) (h : ∀ d ∈ s.diagnostics, P d.location)
    (hcurrent : P s.current.location ∨ ∃ t ∈ ts, t.kind ≠ .error) : (s.fetch ts).Onset P := by
  induction ts generalizing s with
  | nil => exact ⟨hcurrent.resolve_right (by simp), by simp [fetch], h⟩
  | cons t ts ih =>
    rw [List.forall_mem_cons] at hts
    rw [fetch]
    split
    · rename_i herror
      refine ih hts.2 (complainAt_places h hts.1 _) ?_
      rw [complainAt_current]
      simpa [eq_of_beq herror] using hcurrent
    · exact ⟨hts.1, hts.2, h⟩

theorem Onset.advance (h : s.Onset P) : s.advance.Placed P := by
  unfold Compilation.advance
  dsimp only
  split
  · exact ⟨⟨h.current, h.rest, h.diagnostics⟩, h.current⟩
  · exact ⟨onset_fetch h.rest h.diagnostics (.inl h.current), by rw [fetch_previous]; exact h.current⟩

theorem start_onset (hts : ∀ t ∈ ts, P t.location) (h : ∃ t ∈ ts, t.kind ≠ .error) :
    (start ts).advance.Onset P := onset_fetch hts (by simp [start]) (.inr h)

instance lasting_placed : Lasting Placed where
  write _ _ _ h := ⟨⟨h.current, h.rest, h.diagnostics⟩, h.previous⟩
  complain c h := ⟨h.complain h.previous c, by rw [complainAt_previous]; exact h.previous⟩
  complainHere c h := ⟨h.complain h.current c, by rw [complainAt_previous]; exact h.previous⟩
  advance h := h.advance
  calm h := ⟨⟨h.current, h.rest, h.diagnostics⟩, h.previous⟩

end Compilation

namespace Comp

open Compilation (Placed Shared)

theorem script_placed {P : Location → Prop} (fuel : Nat) {s : Compilation} (h : s.advance.Onset P) :
    ((script (parse (fuel + 4))).run s).2.Placed P := by
  have := fellows_parse (A := Shared Placed) (fuel + 4)
  have hfresh := (fresh_program (fun _ => pure ()) fuel).bind (f := fun _ => finishFunction)
    s.advance s.advance.current
  rw [← parse_eq_parseFrom] at hfresh
  show ((parse (fuel + 4) .program >>= fun _ => finishFunction).run s.advance).2.Placed P
  rw [← hfresh]
  exact lasting_run (I := Placed) ⟨⟨h.current, h.rest, h.diagnostics⟩, h.current⟩

end Comp

theorem Compiled.mem_ofRun {d : Diagnostic} {r : Proto × Compilation} :
    d ∈ (ofRun r).diagnostics ↔ d ∈ r.2.diagnostics :=
  Array.mem_toList_iff

theorem compile_inside (file source : String) :
    ∀ d ∈ (compile file source).diagnostics, d.location.Inside source := by
  have hstart : (Compilation.start (tokens file source)).advance.Onset (Location.Inside source) := by
    obtain ⟨t, ht, heof⟩ := (tokens_yields file source).exists_eof
    exact Compilation.start_onset (tokens_inside file source) ⟨t, ht, by simp [heof]⟩
  have hprogram := Comp.script_placed (8 * ((tokens file source).length + 2) - 4) hstart
  rw [Nat.sub_add_cancel (by omega)] at hprogram
  intro d hd
  rw [compile, compileTokens, Compiled.mem_ofRun] at hd
  exact hprogram.diagnostics d hd

/-! ## What is shown -/

/-- The diagnostic is shown with its line, and with marks that begin on that line or just behind
it. -/
def Diagnostic.Shown (source : String) (d : Diagnostic) : Prop :=
  ∃ line start width, (Text.lines source)[(d.location.line - 1).toNat]? = some line ∧
    d.excerpt source = d.message ++ "\n" ++ line ++ "\n" ++
    String.ofList (List.replicate start ' ' ++ List.replicate width '^') ∧
    start ≤ line.length ∧ 0 < width ∧ (d.location.lastColumn ≠ none → start + width ≤ line.length)

theorem Location.Inside.shown {d : Diagnostic} (h : d.location.Inside source) : d.Shown source := by
  obtain ⟨hpos, line, hline, hcolumn, hlength, hlast⟩ := h
  have hexcerpt : d.excerpt source = d.message ++ "\n" ++ line ++ "\n" ++
      Diagnostic.underline d.location := by
    rw [Diagnostic.excerpt, if_pos (by omega), hline]
  refine ⟨line, (d.location.column - 1).toNat, _, hline, hexcerpt, by omega, ?_, fun h => ?_⟩
  · split
    · split <;> omega
    · exact Nat.one_pos
  · obtain ⟨last, hl⟩ := Option.ne_none_iff_exists'.1 h
    obtain ⟨hle, hend⟩ := hlast last hl
    simp only [hl, if_pos hle]
    omega

theorem splitOn_bounds (cs : List Char) :
    (cs.splitOn '\n').length ≤ cs.length + 1 ∧ ∀ l ∈ cs.splitOn '\n', l.length ≤ cs.length := by
  induction cs with
  | nil => simp
  | cons c cs ih =>
    obtain ⟨hlength, hlines⟩ := ih
    rw [splitOn_cons]
    by_cases hc : c = '\n'
    · simp only [hc, if_true, List.length_cons, List.forall_mem_cons]
      exact ⟨by omega, by simp, fun l hl => Nat.le_succ_of_le (hlines l hl)⟩
    · simp only [hc, if_false, List.length_modifyHead, List.length_cons]
      refine ⟨by omega, ?_⟩
      cases hsplit : cs.splitOn '\n' with
      | nil => simp
      | cons l ls =>
        rw [hsplit, List.forall_mem_cons] at hlines
        rw [List.modifyHead_cons, List.forall_mem_cons, List.length_cons]
        exact ⟨Nat.succ_le_succ hlines.1, fun l hl => Nat.le_succ_of_le (hlines.2 l hl)⟩

theorem lines_bounds {i : Nat} {line : String} (h : (Text.lines source)[i]? = some line) :
    i ≤ source.length ∧ line.length ≤ source.length := by
  obtain ⟨hlength, hlines⟩ := splitOn_bounds source.toList
  obtain ⟨hi, -⟩ := List.getElem?_eq_some_iff.1 h
  rw [Text.lines, List.getElem?_map, Option.map_eq_some_iff] at h
  obtain ⟨l, hl, rfl⟩ := h
  rw [Text.lines, List.length_map] at hi
  rw [String.length_toList] at hlength hlines
  rw [String.length_ofList]
  exact ⟨by omega, hlines l (List.mem_of_getElem? hl)⟩

namespace Editor

/-- The stretch has the line and the characters of the place. -/
structure Range.Covers (r : Range) (l : Location) : Prop where
  line : (r.line.toNat : Int) + 1 = l.line
  start : (r.start.toNat : Int) + 1 = l.column
  stop : (r.stop.toNat : Int) = l.lastColumn.getD l.column

/-- The stretch is not empty and stands on a line of the source, of which it may have the end. -/
def Range.Inside (source : String) (r : Range) : Prop :=
  r.start < r.stop ∧ ∃ line, (Text.lines source)[r.line.toNat]? = some line ∧
    r.stop.toNat ≤ line.length + 1

theorem toNat_ofInt {n : Int} (h : 0 ≤ n) (h' : n < 4294967296) :
    ((UInt32.ofInt n).toNat : Int) = n := by
  rw [UInt32.ofInt, UInt32.toNat_ofNat']
  omega

theorem fromZero_eq {n : Int} (h : 1 ≤ n) (h' : n ≤ 4294967296) : fromZero n = n - 1 := by
  rw [fromZero, Number.wrapWord_of_lt (by omega) (by omega)]
  omega

theorem ofLocation_covers {l : Location} (h : l.Inside source) (hsource : source.length < 4294967295) :
    (Range.ofLocation l).Covers l := by
  obtain ⟨hpos, line, hline, hcolumn, hlength, hlast⟩ := h
  obtain ⟨hindex, hwidth⟩ := lines_bounds hline
  refine ⟨?_, ?_, ?_⟩
  · rw [Range.ofLocation, fromZero_eq hpos (by omega), toNat_ofInt (by omega) (by omega)]
    omega
  · rw [Range.ofLocation, fromZero_eq hcolumn (by omega), toNat_ofInt (by omega) (by omega)]
    omega
  · simp only [Range.ofLocation, fromZero_eq hcolumn (by omega)]
    cases hl : l.lastColumn with
    | none =>
      simp only [Option.getD_none]
      rw [toNat_ofInt (by omega) (by omega)]
      omega
    | some last =>
      obtain ⟨hle, hend⟩ := hlast last hl
      simp only [Option.getD_some, if_pos (show l.column - 1 < last by omega)]
      exact toNat_ofInt (by omega) (by omega)

theorem Range.Covers.inside {r : Range} {l : Location} (hr : r.Covers l) (h : l.Inside source) :
    r.Inside source := by
  obtain ⟨hpos, line, hline, hcolumn, hlength, hlast⟩ := h
  obtain ⟨hrow, hstart, hstop⟩ := hr
  have hspan : l.column ≤ l.lastColumn.getD l.column ∧
      l.lastColumn.getD l.column ≤ line.length + 1 := by
    cases hl : l.lastColumn with
    | none => exact ⟨Int.le_refl _, hlength⟩
    | some last =>
      obtain ⟨hle, hend⟩ := hlast last hl
      exact ⟨hle, Int.le_trans hend (by omega)⟩
  refine ⟨UInt32.lt_iff_toNat_lt.2 (by omega), line, ?_, by omega⟩
  rw [← hline, ← hrow, Int.add_sub_cancel, Int.toNat_natCast]

end Editor

theorem Editor.findings_of_error {ds : Diagnostics} (h : (compile file source).result = .error ds) :
    findings file source = ds.map .ofDiagnostic := by
  delta findings
  rw [h]

theorem Editor.findings_of_ok {p : Proto} (h : (compile file source).result = .ok p) :
    findings file source = [] := by
  delta findings
  rw [h]

/-- **The diagnostics of a source stand in it**, where they can be shown in the source itself and in
an editor. -/
theorem refused_inside (file source : String) :
    (∀ ds, (compile file source).result = .error ds → ds ≠ [] ∧
      (∀ d ∈ ds, d.location.Inside source ∧ d.Shown source) ∧
      (source.length < 4294967295 →
        List.Forall₂ (fun d f => f.range.Covers d.location ∧ f.range.Inside source) ds
        (Editor.findings file source))) ∧
    (Editor.findings file source = [] ↔ ∃ p, (compile file source).result = .ok p) := by
  refine ⟨fun ds hresult => ?_, ?_⟩
  · obtain ⟨hne, rfl⟩ := Compiled.result_eq_error.1 hresult
    have hinside := compile_inside file source
    refine ⟨hne, fun d hd => ⟨hinside d hd, (hinside d hd).shown⟩, fun hsource => ?_⟩
    rw [Editor.findings_of_error hresult, List.forall₂_map_right_iff, List.forall₂_same]
    intro d hd
    have hcovers := Editor.ofLocation_covers (hinside d hd) hsource
    exact ⟨hcovers, hcovers.inside (hinside d hd)⟩
  · cases hresult : (compile file source).result with
    | ok p => simp [Editor.findings_of_ok hresult]
    | error ds =>
      obtain ⟨hne, rfl⟩ := Compiled.result_eq_error.1 hresult
      simpa [Editor.findings_of_error hresult] using hne

theorem refused_inside_empty_line :
    (compile "" "(\n").diagnostics.map (·.location) = [⟨"", 2, 1, none⟩] ∧
    List.Forall₂ (fun d f => f.range.Covers d.location ∧ f.range.Inside "(\n")
    (compile "" "(\n").diagnostics
      (Editor.findings "" "(\n") :=
  ⟨by decide +kernel, ((refused_inside "" "(\n").1 _ (if_neg (by decide +kernel))).2.2 (by decide)⟩

end Parlance
