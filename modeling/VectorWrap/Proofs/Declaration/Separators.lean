import VectorWrap.Proofs.Declaration.Cuts
import VectorWrap.Proofs.Declaration.QuotedDefaults

/-!
# The commas that separate

A comma separates two pieces when as many parentheses are closed as opened in all of the text before
it, the pieces that are cut off already included.  So the count that a piece leaves matters for the
pieces behind it, and a text whose pieces are trimmed, dropped where they are empty and joined again
could be split elsewhere.  It is not: each piece has no comma at level zero of its own, and each but
the last one ends at level zero (`apart_topPieces`).  Blanks do not count, so the same is true of
the trimmed pieces, and such pieces are found again when they are joined
(`splitTopLevel_joinWith`).

`cutAround` is the text cut at given offsets and `separators` are the offsets of the commas that
separate, both written without the scan; the scan is compared with them by its length so far
(`cutAround_append`).
-/

namespace VectorWrap.Text

/-! ### Where a text is split -/

/-- The offset of a comma before which as many parentheses are closed as opened. -/
def Separates (s : Text) (i : Nat) : Prop :=
  s[i]? = some ',' ∧ (s.take i).count '(' = (s.take i).count ')'

instance (s : Text) : DecidablePred (Separates s) := fun i =>
  inferInstanceAs (Decidable (s[i]? = some ',' ∧ (s.take i).count '(' = (s.take i).count ')'))

/-- The offsets at which a text is split, in order. -/
def separators (s : Text) : List Nat :=
  (List.range s.length).filter (Separates s ·)

/-- What is left of a text from `start` on when the characters at some offsets are taken out. -/
def cutAround (s : Text) (start : Nat) : List Nat → List Text
  | [] => [s.drop start]
  | i :: is => (s.take i).drop start :: cutAround s (i + 1) is

/-- The count is the difference of the two kinds of parentheses. -/
theorem level_eq_count (s : Text) : level s = s.count '(' - s.count ')' := by
  induction s with
  | nil => rfl
  | cons c s ih =>
    rw [level_cons, ih, nesting, List.count_cons, List.count_cons]
    rcases eq_or_ne c '(' with rfl | ho
    · simp [add_comm, add_sub_right_comm]
    · rcases eq_or_ne c ')' with rfl | hc
      · simp
        ring
      · simp [ho, hc]

/-- A comma separates exactly if the count before it is zero. -/
theorem separates_iff (u v : Text) (c : Char) :
    Separates (u ++ c :: v) u.length ↔ c = ',' ∧ level u = 0 := by
  rw [Separates, level_eq_count, sub_eq_zero, Nat.cast_inj]
  simp

/-- The piece at hand begins behind `a`, and `b` is what has been seen of it. -/
theorem cutAround_append (a b r : Text) :
    cutAround (a ++ (b ++ r)) a.length
        ((List.range' (a ++ b).length r.length).filter (Separates (a ++ (b ++ r)) ·)) =
      glue b (topPieces (level (a ++ b)) r) := by
  induction r generalizing a b with
  | nil => simp [cutAround, topPieces, glue]
  | cons c r ih =>
    have here : Separates (a ++ (b ++ c :: r)) (a ++ b).length ↔ c = ',' ∧ level (a ++ b) = 0 := by
      rw [← List.append_assoc]
      exact separates_iff (a ++ b) r c
    have longer (b' : Text) : (a ++ b ++ b').length = (a ++ b).length + b'.length :=
      List.length_append
    rw [List.length_cons, List.range'_succ]
    by_cases h : c = ',' ∧ level (a ++ b) = 0
    · obtain ⟨rfl, hl⟩ := h
      have piece : ((a ++ (b ++ ',' :: r)).take (a ++ b).length).drop a.length = b := by
        rw [← List.append_assoc, List.take_left, List.drop_left]
      have pieces : cutAround (a ++ (b ++ ',' :: r)) ((a ++ b).length + 1)
          ((List.range' ((a ++ b).length + 1) r.length).filter
            (Separates (a ++ (b ++ ',' :: r)) ·)) = glue [] (topPieces 0 r) := by
        have behind := ih (a ++ b ++ [',']) []
        rwa [List.append_nil, longer, level_append, hl, List.nil_append, List.append_assoc,
          List.append_assoc] at behind
      obtain ⟨t, ts, ht⟩ := List.exists_cons_of_ne_nil (topPieces_ne_nil 0 r)
      rw [List.filter_cons_of_pos (by simpa using here.mpr ⟨rfl, hl⟩), cutAround, piece, pieces, hl]
      simp [topPieces, glue, ht]
    · have pieces := ih a (b ++ [c])
      have seen : a ++ (b ++ [c]) = a ++ b ++ [c] := (List.append_assoc ..).symm
      rw [seen, longer, level_append, level_cons, level_nil, add_zero,
        List.append_assoc b] at pieces
      rw [List.filter_cons_of_neg (by simpa using mt here.mp h), topPieces_cons h, glue_glue]
      exact pieces

/-- The pieces are what the separating commas cut off. -/
theorem topPieces_eq_cutAround (s : Text) : topPieces 0 s = cutAround s 0 (separators s) := by
  obtain ⟨t, ts, ht⟩ := List.exists_cons_of_ne_nil (topPieces_ne_nil 0 s)
  have pieces := cutAround_append [] [] s
  rw [separators, List.range_eq_range']
  simpa [ht, glue] using pieces.symm

/-! ### Pieces that come apart again -/

/-- Texts that commas keep apart: no comma of theirs is at level zero, and each but the last one
ends at level zero. -/
structure Apart (ws : List Text) : Prop where
  enclosed : ∀ w ∈ ws, Enclosed ',' 0 w
  level : ws.Pairwise fun w _ => level w = 0

theorem Apart.filter {ws : List Text} (h : Apart ws) (p : Text → Bool) : Apart (ws.filter p) where
  enclosed w hw := h.enclosed w (List.mem_of_mem_filter hw)
  level := h.level.filter p

/-- The pieces of a text are apart. -/
theorem apart_topPieces (s : Text) : Apart (topPieces 0 s) := by
  induction hn : s.length using Nat.strong_induction_on generalizing s with
  | _ n ih =>
    by_cases h : Enclosed ',' 0 s
    · rw [topPieces_enclosed h]
      exact ⟨by simpa using h, List.pairwise_singleton _ _⟩
    · obtain ⟨u, v, rfl, hl, hu⟩ := exists_of_not_enclosed h
      rw [zero_add] at hl
      have shorter : v.length < n := by
        rw [← hn, List.length_append, List.length_cons]
        omega
      obtain ⟨enclosed, level⟩ := ih v.length shorter v rfl
      rw [topPieces_comma hu hl]
      exact ⟨List.forall_mem_cons.mpr ⟨hu, enclosed⟩,
        List.pairwise_cons.mpr ⟨fun _ _ => hl, level⟩⟩

theorem level_of_blank {a : Text} (h : ∀ c ∈ a, isBlank c = true) : level a = 0 := by
  rw [level_eq_count, List.count_eq_zero_of_not_mem (not_mem_of_class h (by decide)),
    List.count_eq_zero_of_not_mem (not_mem_of_class h (by decide))]
  rfl

theorem level_trim (s : Text) : level (trim s) = level s := by
  rw [level_eq_count, level_eq_count, count_trim (by decide), count_trim (by decide)]

theorem enclosed_trim {s : Text} (h : Enclosed ',' 0 s) : Enclosed ',' 0 (trim s) := by
  obtain ⟨a, b, hs, ha, -⟩ := exists_trim s
  rw [hs, List.append_assoc, enclosed_append, enclosed_append, level_of_blank ha] at h
  exact h.2.1

/-- Pieces that are apart are so when they are trimmed. -/
theorem Apart.map_trim {ws : List Text} (h : Apart ws) : Apart (ws.map trim) where
  enclosed w hw := by
    obtain ⟨v, hv, rfl⟩ := List.mem_map.mp hw
    exact enclosed_trim (h.enclosed v hv)
  level := h.level.map trim fun v _ hv => (level_trim v).trans hv

theorem apart_splitTopLevel (s : Text) : Apart (splitTopLevel s) :=
  (apart_topPieces s).map_trim.filter _

/-- A piece is trimmed and not empty. -/
theorem trimmed_of_mem_splitTopLevel {s w : Text} (h : w ∈ splitTopLevel s) :
    Trimmed w ∧ w ≠ [] := by
  obtain ⟨hw, hne⟩ := List.mem_filter.mp h
  obtain ⟨v, -, rfl⟩ := List.mem_map.mp hw
  exact ⟨trimmed_trim v, by simpa using hne⟩

theorem splitTopLevel_enclosed {w : Text} (h : Enclosed ',' 0 w) (ht : Trimmed w) (hn : w ≠ []) :
    splitTopLevel w = [w] := by
  simp [splitTopLevel, topPieces_enclosed h, trim_of_trimmed ht, hn]

/-- Pieces that are apart are found again when they are joined. -/
theorem splitTopLevel_joinWith {pad : Text} (hp : ∀ c ∈ pad, isLayout c = true) {ws : List Text}
    (h : Apart ws) (ht : ∀ w ∈ ws, Trimmed w ∧ w ≠ []) :
    splitTopLevel (joinWith (',' :: pad) ws) = ws := by
  induction ws with
  | nil => rfl
  | cons w ws ih =>
    obtain ⟨⟨hw, hn⟩, hs⟩ := List.forall_mem_cons.mp ht
    obtain ⟨enclosed, rest⟩ := List.forall_mem_cons.mp h.enclosed
    obtain ⟨level, levels⟩ := List.pairwise_cons.mp h.level
    cases ws with
    | nil =>
      rw [joinWith, List.intercalate_singleton]
      exact splitTopLevel_enclosed enclosed hw hn
    | cons v vs =>
      have pieces (s : Text) : splitTopLevel (w ++ ',' :: s) = w :: splitTopLevel s := by
        simp [splitTopLevel, topPieces_comma enclosed (level v List.mem_cons_self),
          trim_of_trimmed hw, hn]
      rw [joinWith, List.intercalate_cons_cons, List.append_assoc, List.cons_append, pieces,
        splitTopLevel_layout hp]
      exact congrArg _ (ih ⟨rest, levels⟩ hs)

/-- **A list is split at the commas before which its parentheses balance, and stays split.**  The
parts are what stands between these commas, trimmed, without what is empty; joined by a comma and a
blank they are split into the same parts, none of them is split any further, and every cut made at
a byte falls between two characters. -/
theorem splitTopLevel_stable (s : Text) :
    splitTopLevel s = ((cutAround s 0 (separators s)).map trim).filter (!·.isEmpty) ∧
      splitTopLevel (joinWith ", " (splitTopLevel s)) = splitTopLevel s ∧
      (∀ w ∈ splitTopLevel s, splitTopLevel w = [w]) ∧
      cutTopLevel s = .ok (splitTopLevel s) := by
  refine ⟨?_, ?_, fun w hw => ?_, cutTopLevel_eq s⟩
  · rw [splitTopLevel, topPieces_eq_cutAround]
  · have space : ∀ c ∈ [' '], isLayout c = true := by simp [isLayout]
    exact splitTopLevel_joinWith space (apart_splitTopLevel s) fun w hw =>
      trimmed_of_mem_splitTopLevel hw
  · obtain ⟨trimmed, ne_nil⟩ := trimmed_of_mem_splitTopLevel hw
    exact splitTopLevel_enclosed ((apart_splitTopLevel s).enclosed w hw) trimmed ne_nil

/-- Where a piece closes more than it opens, no comma separates until that is made good. -/
example : splitTopLevel "f(a, b) ,, c), d(, e" =
    ["f(a, b)".toList, "c), d(".toList, "e".toList] := by
  cbv

end VectorWrap.Text
