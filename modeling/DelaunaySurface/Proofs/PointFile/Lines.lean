import DelaunaySurface.PointFile.Reader
import DelaunaySurface.Proofs.Text.Decoding
import DelaunaySurface.Samples.View
import Mathlib.Data.List.Range
/-!
# Point files line by line

Whole lines are read on their own: what comes before them shifts the numbers of skipped lines and nothing else
(`lineByLine_of_valid`). A line is a body without line feeds and at most one line feed after it (`exists_body`), and the ends of
lines have no part in how they are judged (`judge_concat`).
-/

namespace DelaunaySurface.PointFile

/-! ## Lines -/

theorem lines_lineFeed (bytes : List UInt8) : lines (0x0A :: bytes) = [0x0A] :: lines bytes := by
  rw [lines, List.foldr_cons, ← lines]
  cases lines bytes <;> rfl

theorem lines_cons {b : UInt8} (hb : b ≠ 0x0A) (bytes : List UInt8) :
    lines (b :: bytes) = (b :: (lines bytes).headD []) :: (lines bytes).tail := by
  rw [lines, List.foldr_cons, ← lines]
  cases lines bytes with
  | nil => rfl
  | cons l ls => exact if_neg hb

theorem lines_ne_nil {bytes : List UInt8} (h : bytes ≠ []) : lines bytes ≠ [] := by
  intro hnil
  have := flatten_lines bytes
  rw [hnil] at this
  exact h this.symm

/-- A line has a line feed only at its end. -/
theorem exists_body {bytes line : List UInt8} (h : line ∈ lines bytes) :
    ∃ body, 0x0A ∉ body ∧ (line = body ∨ line = body ++ [0x0A]) := by
  induction bytes generalizing line with
  | nil => cases h
  | cons b bytes ih =>
    by_cases hb : b = 0x0A
    · subst hb
      rw [lines_lineFeed] at h
      rcases List.mem_cons.1 h with rfl | h
      · exact ⟨[], List.not_mem_nil, .inr rfl⟩
      · exact ih h
    · rw [lines_cons hb] at h
      rcases List.mem_cons.1 h with rfl | h
      · -- The byte goes in front of the first line, if there is one.
        have hhead : ∃ body, 0x0A ∉ body ∧ ((lines bytes).headD [] = body ∨ (lines bytes).headD [] = body ++ [0x0A]) := by
          cases hl : lines bytes with
          | nil => exact ⟨[], List.not_mem_nil, .inl rfl⟩
          | cons l ls =>
            have hmem : l ∈ lines bytes := hl ▸ List.mem_cons_self
            exact ih hmem
        obtain ⟨body, hbody, hline⟩ := hhead
        refine ⟨b :: body, List.not_mem_cons_of_ne_of_not_mem (Ne.symm hb) hbody, ?_⟩
        rcases hline with hline | hline <;> rw [hline]
        · exact .inl rfl
        · exact .inr rfl
      · exact ih (List.mem_of_mem_tail h)

/-- Bytes that no line begins in without ending there. -/
def Whole (bytes : List UInt8) : Prop := bytes = [] ∨ bytes.getLast? = some 0x0A

theorem Whole.tail {b : UInt8} {bytes : List UInt8} (h : Whole (b :: bytes)) : Whole bytes ∧ (b ≠ 0x0A → bytes ≠ []) := by
  have hlast : (b :: bytes).getLast? = some 0x0A := h.resolve_left (List.cons_ne_nil b bytes)
  cases bytes with
  | nil => exact ⟨.inl rfl, fun hb => absurd (Option.some.inj hlast) hb⟩
  | cons c bytes => exact ⟨.inr (List.getLast?_cons_cons ▸ hlast), fun _ => List.cons_ne_nil c bytes⟩

theorem lines_append {before : List UInt8} (h : Whole before) (after : List UInt8) :
    lines (before ++ after) = lines before ++ lines after := by
  induction before with
  | nil => rfl
  | cons b before ih =>
    obtain ⟨hwhole, hmore⟩ := h.tail
    rw [List.cons_append]
    by_cases hb : b = 0x0A
    · rw [hb, lines_lineFeed, lines_lineFeed, ih hwhole, List.cons_append]
    · obtain ⟨l, ls, hl⟩ := List.exists_cons_of_ne_nil (lines_ne_nil (hmore hb))
      rw [lines_cons hb, lines_cons hb, ih hwhole, hl]
      rfl

theorem length_lines {bytes : List UInt8} (h : Whole bytes) : (lines bytes).length = bytes.count 0x0A := by
  induction bytes with
  | nil => rfl
  | cons b bytes ih =>
    obtain ⟨hwhole, hmore⟩ := h.tail
    by_cases hb : b = 0x0A
    · rw [hb, lines_lineFeed, List.length_cons, ih hwhole, List.count_cons_self]
    · obtain ⟨l, ls, hl⟩ := List.exists_cons_of_ne_nil (lines_ne_nil (hmore hb))
      rw [lines_cons hb, List.count_cons_of_ne hb, ← ih hwhole, hl]
      rfl

/-! ## Carriage returns -/

/-- The bytes with a carriage return before each line feed. -/
def withCarriageReturns (bytes : List UInt8) : List UInt8 :=
  bytes.flatMap fun b => if b = 0x0A then [0x0D, 0x0A] else [b]

theorem withCarriageReturns_cons {b : UInt8} (hb : b ≠ 0x0A) (bytes : List UInt8) :
    withCarriageReturns (b :: bytes) = b :: withCarriageReturns bytes := by
  rw [withCarriageReturns, List.flatMap_cons, if_neg hb]
  rfl

theorem withCarriageReturns_eq {body : List UInt8} (h : 0x0A ∉ body) : withCarriageReturns body = body := by
  induction body with
  | nil => rfl
  | cons b body ih =>
    obtain ⟨hb, hbody⟩ := List.ne_and_not_mem_of_not_mem_cons h
    rw [withCarriageReturns_cons (Ne.symm hb), ih hbody]

theorem lines_withCarriageReturns (bytes : List UInt8) :
    lines (withCarriageReturns bytes) = (lines bytes).map withCarriageReturns := by
  induction bytes with
  | nil => rfl
  | cons b bytes ih =>
    by_cases hb : b = 0x0A
    · subst hb
      change lines (0x0D :: 0x0A :: withCarriageReturns bytes) = _
      rw [lines_cons (by decide), lines_lineFeed, lines_lineFeed, ih]
      rfl
    · rw [withCarriageReturns_cons hb, lines_cons hb, lines_cons hb, ih, List.map_cons, withCarriageReturns_cons hb, List.map_tail]
      cases lines bytes <;> rfl

/-! ## Judging lines -/

section Judge

variable (l : Layout)

/-- A line feed or carriage return at the end of a line has no part in it. -/
theorem judge_concat {b : UInt8} (hb : b = 0x0A ∨ b = 0x0D) (body : List UInt8) : judge l (body ++ [b]) = judge l body := by
  have htext : Text.dropEndWhile (fun c => c = '\n' || c = '\r') (Text.decode (body ++ [b])) =
      Text.dropEndWhile (fun c => c = '\n' || c = '\r') (Text.decode body) := by
    rcases hb with rfl | rfl <;> rw [Text.decode_concat _ (by decide), Text.dropEndWhile_concat (by decide)]
  rw [judge, htext, judge]

theorem judge_withCarriageReturns {bytes line : List UInt8} (h : line ∈ lines bytes) :
    judge l (withCarriageReturns line) = judge l line := by
  obtain ⟨body, hbody, rfl | rfl⟩ := exists_body h
  · rw [withCarriageReturns_eq hbody]
  · have hend : withCarriageReturns (body ++ [0x0A]) = body ++ [0x0D] ++ [0x0A] := by
      rw [withCarriageReturns, List.flatMap_append, ← withCarriageReturns, withCarriageReturns_eq hbody]
      exact (List.append_assoc body [0x0D] [0x0A]).symm
    rw [hend, judge_concat l (.inl rfl), judge_concat l (.inr rfl), judge_concat l (.inl rfl)]

/-- A line whose characters are all blank. -/
def Blank (line : List UInt8) : Prop := (Text.decode line).all Text.isBlank = true

instance : DecidablePred Blank := fun _ => inferInstanceAs (Decidable (_ = true))

theorem judge_eq_blank_iff {line : List UInt8} : judge l line = .blank ↔ Blank line := by
  have hends : ∀ c : Char, (decide (c = '\n') || decide (c = '\r')) = true → Text.isBlank c = true := by
    intro c hc
    rw [Bool.or_eq_true, decide_eq_true_eq, decide_eq_true_eq] at hc
    rcases hc with rfl | rfl <;> decide
  rw [Blank, ← Text.all_dropEndWhile hends, ← Text.isEmpty_trim, judge]
  dsimp only
  split
  · simp [*]
  · refine iff_of_false ?_ ‹_›
    split <;> exact nofun

/-- A sample is accepted with finite coordinates. -/
theorem finite_of_judge {line : List UInt8} {p : Sample Float} (h : judge l line = .accepted p) :
    p.x.isFinite = true ∧ p.y.isFinite = true ∧ p.z.isFinite = true := by
  have hfinite {token : Option (List Char)} {a : Float} (h : token.bind finite? = some a) : a.isFinite = true := by
    obtain ⟨cs, -, ha⟩ := Option.bind_eq_some_iff.1 h
    exact (Option.filter_eq_some_iff.1 ha).2
  rw [judge] at h
  dsimp only at h
  split at h
  · cases h
  · split at h
    · next hx hy hz =>
      cases h
      exact ⟨hfinite hx, hfinite hy, hfinite hz⟩
    · cases h

end Judge

/-! ## Readings -/

namespace Reading

/-- One reading after another, of bytes with `n` lines. -/
def followedBy (n : Nat) (a b : Reading) : Reading where
  samples := Samples.ofList (a.samples.toList ++ b.samples.toList)
  accepted := a.accepted + b.accepted
  skipped := a.skipped + b.skipped
  skippedLines := a.skippedLines ++ b.skippedLines.map (n + ·)

/-- The numbers of skipped lines where `n` lines come before. -/
def skippedAfter (n : Nat) (ls : List Line) : List Nat :=
  (ls.zipIdx n).filterMap fun (l, i) => if l.isSkipped then some (i + 1) else none

theorem skippedAfter_eq (n : Nat) (ls : List Line) : skippedAfter n ls = (ofLines ls).skippedLines.map (n + ·) := by
  change skippedAfter n ls = (skippedAfter 0 ls).map (n + ·)
  rw [skippedAfter, skippedAfter, List.map_filterMap, List.zipIdx_eq_map_add, List.filterMap_map]
  refine List.filterMap_congr fun (l, i) _ => ?_
  change (if l.isSkipped then some (n + i + 1) else none) = (if l.isSkipped then some (i + 1) else none).map (n + ·)
  split <;> rfl

theorem ofLines_append (ls ms : List Line) : ofLines (ls ++ ms) = (ofLines ls).followedBy ls.length (ofLines ms) := by
  have hsamples : (ls ++ ms).filterMap Line.sample? = ls.filterMap Line.sample? ++ ms.filterMap Line.sample? :=
    List.filterMap_append
  have hskipped : (ofLines (ls ++ ms)).skippedLines =
      (ofLines ls).skippedLines ++ (ofLines ms).skippedLines.map (ls.length + ·) := by
    rw [← skippedAfter_eq]
    change skippedAfter 0 _ = skippedAfter 0 _ ++ _
    rw [skippedAfter, skippedAfter, skippedAfter, List.zipIdx_append, List.filterMap_append, Nat.zero_add]
  rw [followedBy, ← hskipped, mk.injEq]
  refine ⟨?_, ?_, ?_, rfl⟩
  · change Samples.ofList _ = Samples.ofList ((Samples.ofList _).toList ++ (Samples.ofList _).toList)
    rw [Samples.toList_ofList, Samples.toList_ofList, hsamples]
  · exact (congrArg List.length hsamples).trans List.length_append
  · refine (congrArg List.length hskipped).trans ?_
    rw [List.length_append, List.length_map]
    rfl

theorem increasing_ofLines (ls : List Line) : (ofLines ls).skippedLines.Pairwise (· < ·) := by
  have hplaces : ls.zipIdx.Pairwise fun a b => a.2 < b.2 := by
    rw [← List.pairwise_map (f := Prod.snd), List.zipIdx_map_snd]
    exact List.pairwise_lt_range'
  refine List.Pairwise.filterMap _ (fun a b hab n hn m hm => ?_) hplaces
  have hnumber {c : Line × Nat} {k : Nat} (hk : k ∈ if c.1.isSkipped then some (c.2 + 1) else none) : k = c.2 + 1 := by
    split at hk <;> cases hk
    rfl
  rw [hnumber hn, hnumber hm]
  exact Nat.succ_lt_succ hab

/-- Each line is blank, accepted or skipped. -/
theorem total_ofLines (ls : List Line) :
    (ofLines ls).accepted + (ofLines ls).skipped = ls.countP fun line => !(line matches .blank) := by
  induction ls with
  | nil => rfl
  | cons line ls ih =>
    have hone : (ofLines [line]).accepted + (ofLines [line]).skipped = [line].countP fun line => !(line matches .blank) := by
      cases line <;> rfl
    rw [← List.singleton_append, ofLines_append, List.countP_append, ← ih, ← hone]
    exact Nat.add_add_add_comm _ _ _ _

/-- What a reading says of the lines of its bytes. -/
structure Accounts (bytes : List UInt8) (r : Reading) : Prop where
  size : r.samples.size = r.accepted
  increasing : r.skippedLines.Pairwise (· < ·)
  length : r.skippedLines.length = r.skipped
  total : r.accepted + r.skipped = (lines bytes).countP fun line => ¬Blank line
  finite : ∀ p ∈ r.samples.toList, p.x.isFinite = true ∧ p.y.isFinite = true ∧ p.z.isFinite = true

theorem accounts_ofLines (l : Layout) (bytes : List UInt8) : Accounts bytes (ofLines ((lines bytes).map (judge l))) where
  size := by rw [← Samples.length_toList, ofLines, Samples.toList_ofList]
  increasing := increasing_ofLines _
  length := rfl
  total := by
    rw [total_ofLines, List.countP_map]
    refine List.countP_congr fun line _ => ?_
    rw [decide_eq_true_eq, ← judge_eq_blank_iff l, Function.comp_apply]
    cases judge l line <;> simp
  finite := by
    rw [ofLines, Samples.toList_ofList]
    intro p hp
    obtain ⟨line, hline, hsample⟩ := List.mem_filterMap.1 hp
    obtain ⟨bytes, -, rfl⟩ := List.mem_map.1 hline
    cases hjudge : judge l bytes with
    | blank | skipped =>
      rw [hjudge] at hsample
      cases hsample
    | accepted q =>
      rw [hjudge] at hsample
      cases hsample
      exact finite_of_judge l hjudge

end Reading

/-! ## Reading bytes -/

/-- Three different columns and, where delimiters are given, at least one. -/
structure Layout.Valid (l : Layout) : Prop where
  different : l.columns.fst ≠ l.columns.snd ∧ l.columns.snd ≠ l.columns.trd ∧ l.columns.fst ≠ l.columns.trd
  separated : l.delimiters ≠ some []

theorem Layout.check_eq_ok_iff {l : Layout} : l.check = .ok () ↔ l.Valid := by
  have hvalid : l.Valid ↔ ¬(l.columns.fst = l.columns.snd ∨ l.columns.snd = l.columns.trd ∨ l.columns.fst = l.columns.trd) ∧
      l.delimiters ≠ some [] := by
    rw [not_or, not_or]
    exact ⟨fun h => ⟨h.different, h.separated⟩, fun h => ⟨h.1, h.2⟩⟩
  rw [hvalid, check, checkColumns]
  split
  · next h => exact iff_of_false nofun fun hv => hv.1 h
  · next h =>
    change (if l.delimiters = some [] then _ else _) = _ ↔ _
    split
    · next hd => exact iff_of_false nofun fun hv => hv.2 hd
    · next hd => exact iff_of_true rfl ⟨h, hd⟩

theorem readBytes_eq {l : Layout} (h : l.Valid) (bytes : List UInt8) :
    readBytes l bytes = .ok (Reading.ofLines ((lines bytes).map (judge l))) := by
  rw [readBytes, Layout.check_eq_ok_iff.2 h]
  rfl

/-- With any valid layout, bytes are read line by line: after whole lines the reading goes on as if it began there, with the line
numbers that follow. Each line that is not blank is accepted, with finite coordinates, or skipped, and it makes no difference
whether lines end with a carriage return. -/
theorem lineByLine_of_valid {l : Layout} (h : l.Valid) :
    (∀ before after, Whole before → ∃ a b, readBytes l before = .ok a ∧ readBytes l after = .ok b ∧
      readBytes l (before ++ after) = .ok (a.followedBy (before.count 0x0A) b)) ∧
    ∀ bytes, ∃ r, readBytes l bytes = .ok r ∧ r.Accounts bytes ∧ readBytes l (withCarriageReturns bytes) = .ok r := by
  refine ⟨fun before after hwhole => ⟨_, _, readBytes_eq h before, readBytes_eq h after, ?_⟩, fun bytes =>
    ⟨_, readBytes_eq h bytes, Reading.accounts_ofLines l bytes, ?_⟩⟩
  · rw [readBytes_eq h, lines_append hwhole, List.map_append, Reading.ofLines_append, List.length_map, length_lines hwhole]
  · have hjudge : ∀ line ∈ lines bytes, (judge l ∘ withCarriageReturns) line = judge l line := fun line hline =>
      judge_withCarriageReturns l hline
    rw [readBytes_eq h, lines_withCarriageReturns, List.map_map, List.map_congr_left hjudge]

/-- Bars and carriage returns between the three columns, with `z` in the second. -/
def barred : Layout := ⟨some ['|', '\r'], ⟨2, 0, 1⟩⟩

/-- `1|2|3`, and a line that is no text. -/
def raggedStart : List UInt8 := [0x31, 0x7C, 0x32, 0x7C, 0x33, 0x0A, 0xFF, 0x0A]

/-- A blank line, and one that does not end. -/
def raggedEnd : List UInt8 := [0x0A, 0x78]

theorem lineByLine_of_valid_ragged : barred.Valid ∧ ∃ a b, readBytes barred raggedStart = .ok a ∧ readBytes barred raggedEnd = .ok b ∧
    readBytes barred (raggedStart ++ raggedEnd) = .ok (a.followedBy 2 b) ∧
    a.accepted = 1 ∧ (a.followedBy 2 b).skippedLines = [2, 4] := by
  have hvalid : barred.Valid := ⟨by decide, by decide⟩
  obtain ⟨a, b, ha, hb, hboth⟩ := (lineByLine_of_valid hvalid).1 raggedStart raggedEnd (.inr rfl)
  have haccepted : (readBytes barred raggedStart).toOption.map (·.accepted) = some 1 := by decide +kernel
  have hskipped : (readBytes barred (raggedStart ++ raggedEnd)).toOption.map (·.skippedLines) = some [2, 4] := by
    decide +kernel
  rw [ha] at haccepted
  rw [hboth] at hskipped
  exact ⟨hvalid, a, b, ha, hb, hboth, Option.some.inj haccepted, Option.some.inj hskipped⟩

end DelaunaySurface.PointFile
