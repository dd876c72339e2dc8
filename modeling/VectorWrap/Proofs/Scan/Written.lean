import VectorWrap.Proofs.Scan.Sweep
import VectorWrap.Proofs.Text.Words

/-!
# Reading what has been written

A text that was put together for a scanner is read as it was put together: layout is skipped, a
name ends before what cannot belong to it, and a text up to a mark ends at the first one.

`sweep_written` says the same of a sweep.  A text made of pieces, each read by the item to its end
whatever follows it and each followed by layout, is swept into these pieces.

The lemmas for single scanners have the text that is read in front of any other text, with the
condition under which it ends there.  They are used from left to right by the round trips of
declarations, fetches, casts and calls.
-/

namespace VectorWrap

namespace Text

theorem upTo_append_self (s t : Text) : upTo (s ++ t) t = s := by
  rw [upTo, List.length_append, Nat.add_sub_cancel, List.take_left]

end Text

namespace Scan

variable {α : Type}

/-! ### Words and marks -/

/-- A run is read to where something begins that does not belong to it. -/
theorem run1_append {p : Char → Bool} {a s : Text} (hne : a ≠ []) (ha : ∀ c ∈ a, p c = true)
    (hs : ∀ c, s.head? = some c → p c = false) : run1 p (a ++ s) = some (a, s) :=
  run1_eq_some.mpr ⟨hne, Text.takeWhile_append_of_head ha hs, Text.dropWhile_append_of_head ha hs⟩

theorem layout_space : ∀ c ∈ [' '], Text.isLayout c = true :=
  List.all_eq_true.mp (by decide)

/-- A fixed text is read behind layout. -/
theorem symbol_append {lay w : Text} (hl : ∀ c ∈ lay, Text.isLayout c = true)
    (hw : w.head?.map Text.isLayout = some false) (s : Text) :
    symbol w (lay ++ (w ++ s)) = some ((), s) := by
  cases w with
  | nil => cases hw
  | cons d w =>
    rw [symbol_eq_some]
    refine Text.dropWhile_append_of_head hl fun c hc => ?_
    cases hc
    simpa using hw

/-- A name is read behind layout, to where it ends. -/
theorem ident_append {lay v s : Text} (hl : ∀ c ∈ lay, Text.isLayout c = true)
    (hv : Text.isName v = true) (hs : ∀ c, s.head? = some c → Text.inName c = false) :
    ident (lay ++ (v ++ s)) = some (v, s) := by
  cases v with
  | nil => cases hv
  | cons c v =>
    simp only [Text.isName, Bool.and_eq_true, List.all_eq_true] at hv
    have hd : (lay ++ (c :: v ++ s)).dropWhile Text.isLayout = c :: (v ++ s) := by
      refine Text.dropWhile_append_of_head hl fun d hd => ?_
      cases hd
      exact Text.isLayout_of_startsName hv.1
    refine bind_eq_some.mpr ⟨(), _, layout_eq_some.mpr hd, ?_⟩
    simp only [name, hv.1, if_true, Text.takeWhile_append_of_head hv.2 hs,
      Text.dropWhile_append_of_head hv.2 hs]

/-- A name ends before a character that cannot belong to it. -/
theorem ident_before {l v : Text} {c : Char} (hl : ∀ c ∈ l, Text.isLayout c = true)
    (hv : Text.isName v = true) (hc : Text.inName c = false) (s : Text) :
    ident (l ++ (v ++ c :: s)) = some (v, c :: s) :=
  ident_append hl hv fun d hd => by
    cases hd
    exact hc

/-- A text up to a mark ends at the first one. -/
theorem splitAt?_append_self {w a : Text} (hw : w ≠ []) (ha : ¬ w <:+: a ++ w.dropLast)
    (s : Text) : splitAt? w (a ++ (w ++ s)) = some (a, s) := by
  induction a with
  | nil =>
    cases w with
    | nil => exact absurd rfl hw
    | cons c w =>
      have : Text.after? (c :: w) (c :: (w ++ s)) = some s := Text.after?_eq_some.mpr rfl
      simp only [List.nil_append, List.cons_append, splitAt?, this]
  | cons c a ih =>
    have hn : Text.after? w (c :: (a ++ (w ++ s))) = none := by
      rw [Option.eq_none_iff_forall_ne_some]
      intro r hr
      -- a mark that begins here ends before the last character of the one that is known
      have hp : w <+: c :: a ++ w.dropLast ++ (w.getLast hw :: s) := by
        refine ⟨r, ?_⟩
        rw [← Text.after?_eq_some.mp hr]
        conv_lhs => rw [← List.dropLast_append_getLast hw]
        simp
      have hlen : w.length ≤ (c :: a ++ w.dropLast).length := by
        have := List.length_pos_iff.mpr hw
        simp only [List.length_append, List.length_cons, List.length_dropLast]
        omega
      exact ha (List.prefix_of_prefix_length_le hp (List.prefix_append _ _) hlen).isInfix
    have ha' : ¬ w <:+: a ++ w.dropLast := fun h => ha (h.trans (List.suffix_cons c _).isInfix)
    simp only [List.cons_append, splitAt?, hn, ih ha', Option.map_some]

/-- A text up to a character ends at the first one. -/
theorem upTo_char {c : Char} {a : Text} (ha : c ∉ a) (s : Text) :
    upTo [c] (a ++ c :: s) = some (a, s) :=
  splitAt?_append_self (w := [c]) (by simp)
    (fun h => ha ((List.singleton_infix_iff c a).mp (List.append_nil a ▸ h))) s

/-! ### Repetitions -/

theorem many_of_none {p : Scan α} {s : Text} (h : p s = none) : many p s = some ([], s) := by
  rw [many, repeated.eq_def, progress_of_none h]

/-- One turn and then the others. -/
theorem many_of_some {p : Scan α} {s r t : Text} {a : α} {as : List α} (h : p s = some (a, r))
    (hr : r.length < s.length) (hm : many p r = some (as, t)) :
    many p s = some (a :: as, t) := by
  have rest : repeated p r = (as, t) := by simpa [many] using hm
  rw [many, repeated.eq_def, (progress_eq_some hr).mpr h]
  simp only [rest]

/-! ### Pieces -/

/-- A piece of a text: how it is written, what is read of it, and the layout after it. -/
structure Piece (α : Type) where
  text : Text
  value : α
  after : Text

namespace Piece

/-- The item reads the piece to its end, whatever follows. -/
structure Read (item : Scan α) (p : Piece α) : Prop where
  head : p.text.head?.map Text.isLayout = some false
  read : ∀ t, item (p.text ++ t) = some (p.value, t)
  after : ∀ c ∈ p.after, Text.isLayout c = true

/-- The text of pieces in order. -/
def written (ps : List (Piece α)) : Text :=
  ps.flatMap fun p => p.text ++ p.after

/-- The pieces as found in their text. -/
def found : List (Piece α) → List (Found α)
  | [] => []
  | p :: ps => ⟨p.value, p.text ++ (p.after ++ written ps), p.after ++ written ps⟩ :: found ps

/-- A written text begins with its first piece and what is behind that. -/
theorem written_cons (p : Piece α) (ps : List (Piece α)) :
    written (p :: ps) = p.text ++ (p.after ++ written ps) := by
  simp [written]

@[simp]
theorem map_value_found (ps : List (Piece α)) : (found ps).map Found.value = ps.map value := by
  induction ps with
  | nil => rfl
  | cons p ps ih => simp [found, ih]

end Piece

/-- **A text made of pieces is swept into the pieces.** -/
theorem sweep_written {item : Scan α} {gap : Scan Unit} {ps : List (Piece α)}
    (h : ∀ p ∈ ps, p.Read item) : sweep item gap (Piece.written ps) = Piece.found ps := by
  induction ps with
  | nil => exact sweep_nil
  | cons p ps ih =>
    obtain ⟨hh, hr, ha⟩ := h p List.mem_cons_self
    have rest : sweep item gap (p.after ++ Piece.written ps) = Piece.found ps := by
      rw [← ih fun q hq => h q (List.mem_cons_of_mem p hq)]
      exact sweep_congr (List.dropWhile_append_of_pos ha)
    rw [Piece.written_cons, Piece.found]
    cases ht : p.text with
    | nil =>
      rw [ht] at hh
      cases hh
    | cons c w =>
      have read := hr (p.after ++ Piece.written ps)
      rw [ht] at hh read
      have hc : Text.isLayout c = false := by simpa using hh
      rw [List.cons_append] at read ⊢
      rw [sweep_item hc read (Text.length_lt_cons_append c w _), rest]

end Scan

end VectorWrap
