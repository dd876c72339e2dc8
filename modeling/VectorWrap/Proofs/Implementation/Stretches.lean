import VectorWrap.Proofs.Code.Lexical
import VectorWrap.Proofs.Implementation.Regions
import VectorWrap.Proofs.Scan.Written

/-!
# The stretches of a body

A body is divided into literals, comments and single characters (`Divides`) in one way, which is how
`stretches` divides it (`Divides.stretches_eq`, `divides_stretches`).  A literal goes on to the
quote that closes it, a block comment to the first `*/` behind its opening, a line comment to the
end of the line, and each of them to the end of the body where that is missing.

Stripping leaves the line feeds of a comment and everything else as it is, and the stripped body is
divided into what is left, stretch by stretch (`Divides.strip`): no two characters that meet where a
comment has been open a comment, and no literal ends elsewhere.

For a division of a text to be the only one each stretch has to be as long as it can: a literal or a
comment that is not closed is the rest of the text (`Divides`).  The fixed texts of stripping are
then those without a comment (`stripComments_eq_self_iff`).
-/

namespace VectorWrap.Line
open Scan Text

/-- A part of a body. -/
inductive Stretch where
  | plain (c : Char)
  | literal (text : Text)
  | comment (text : Text)
  deriving DecidableEq, Repr

namespace Stretch

def text : Stretch → Text
  | plain c => [c]
  | literal t | comment t => t

def isComment : Stretch → Bool
  | comment _ => true
  | _ => false

def isLiteral : Stretch → Bool
  | literal _ => true
  | _ => false

/-- What is left of a stretch in the stripped body. -/
def left : Stretch → List Stretch
  | comment t => (t.filter (· == '\n')).map plain
  | p => [p]

def concat (ps : List Stretch) : Text :=
  ps.flatMap text

/-- The first stretch of a body that begins with `c`, and what is behind it. -/
def first (c : Char) (r : Text) : Stretch × Text :=
  if c = '"' ∨ c = '\'' then
    (literal (c :: (Token.afterQuote c false r).1), (Token.afterQuote c false r).2)
  else if c = '/' ∧ r.head? = some '*' then
    match splitAt? ['*', '/'] r.tail with
    | some (b, t) => (comment ('/' :: '*' :: (b ++ ['*', '/'])), t)
    | none => (comment (c :: r), [])
  else if c = '/' ∧ r.head? = some '/' then
    (comment (c :: r.takeWhile (· ≠ '\n')), r.dropWhile (· ≠ '\n'))
  else (plain c, r)

/-- What is behind the first stretch is shorter. -/
theorem length_first (c : Char) (r : Text) : (first c r).2.length < (c :: r).length := by
  unfold first
  split_ifs with hq hb hl
  · have h := congrArg List.length (Token.append_afterQuote c false r)
    rw [List.length_append] at h
    simp only [List.length_cons]
    omega
  · split
    · next b t h =>
      have h := congrArg List.length (splitAt?_eq h)
      simp only [List.length_append, List.length_tail] at h
      simp only [List.length_cons]
      omega
    · simp
  · exact Nat.lt_succ_of_le (length_dropWhile_le _ r)
  · simp

end Stretch

/-- The stretches of a body, in order. -/
def stretches (s : Text) : List Stretch :=
  match s with
  | [] => []
  | c :: r => (Stretch.first c r).1 :: stretches (Stretch.first c r).2
termination_by s.length
decreasing_by exact Stretch.length_first c r

/-- The body is divided into the stretches. -/
inductive Divides : Text → List Stretch → Prop where
  | nil : Divides [] []
  | plain {c s ps} (hq : ¬ startsLiteral c) (ho : ¬ opensComment c s) (h : Divides s ps) :
      Divides (c :: s) (.plain c :: ps)
  | literal {q b s ps} (hq : startsLiteral q) (hb : QuotedBody q b) (h : Divides s ps) :
      Divides (q :: b ++ q :: s) (.literal (q :: b ++ [q]) :: ps)
  /-- A literal that is not closed; a backslash may be the last character. -/
  | unclosed {q b e} (hq : startsLiteral q) (hb : QuotedBody q b) (he : e = [] ∨ e = ['\\']) :
      Divides (q :: b ++ e) [.literal (q :: b ++ e)]
  | block {b s ps} (hb : ¬ ['*', '/'] <:+: b) (h : Divides s ps) :
      Divides ('/' :: '*' :: (b ++ ['*', '/'] ++ s))
        (.comment ('/' :: '*' :: (b ++ ['*', '/'])) :: ps)
  | openBlock {b} (hb : ¬ ['*', '/'] <:+: b) :
      Divides ('/' :: '*' :: b) [.comment ('/' :: '*' :: b)]
  /-- The line feed that ends a line comment is no part of it. -/
  | line {b s ps} (hb : '\n' ∉ b) (ends : ∀ c, s.head? = some c → c = '\n') (h : Divides s ps) :
      Divides ('/' :: '/' :: (b ++ s)) (.comment ('/' :: '/' :: b) :: ps)

variable {q c : Char} {b s : Text} {ps : List Stretch}

/-! ### Reading -/

namespace Stretch

theorem first_of_startsLiteral (hq : startsLiteral q) (r : Text) : first q r =
    (literal (q :: (Token.afterQuote q false r).1), (Token.afterQuote q false r).2) := by
  rw [first]
  exact if_pos hq

/-- A block comment goes on to the first end mark. -/
theorem first_block (r : Text) : first '/' ('*' :: r) =
    match splitAt? ['*', '/'] r with
    | some (b, t) => (comment ('/' :: '*' :: (b ++ ['*', '/'])), t)
    | none => (comment ('/' :: '*' :: r), []) := by
  simp [first]

theorem first_line (r : Text) : first '/' ('/' :: r) =
    (comment ('/' :: '/' :: r.takeWhile (· ≠ '\n')), r.dropWhile (· ≠ '\n')) := by
  simp [first]

/-- A character that begins nothing is a stretch of its own. -/
theorem first_of_plain (hq : ¬ startsLiteral c) (ho : ¬ opensComment c s) :
    first c s = (plain c, s) := by
  obtain ⟨hb, hl⟩ : ¬ (c = '/' ∧ s.head? = some '*') ∧ ¬ (c = '/' ∧ s.head? = some '/') :=
    ⟨fun h => ho ⟨h.1, .inl h.2⟩, fun h => ho ⟨h.1, .inr h.2⟩⟩
  rw [first, if_neg hb, if_neg hl]
  exact if_neg hq

end Stretch

/-- An asterisk behind a text brings no end of a comment about. -/
theorem not_infix_asterisk (hb : ¬ ['*', '/'] <:+: b) : ¬ ['*', '/'] <:+: b ++ ['*'] := by
  rw [List.infix_concat_iff]
  rintro (⟨t, ht⟩ | inside)
  · have last := congrArg List.getLast? ht
    simp at last
  · exact hb inside

/-- A text is not split just if the word does not stand in it. -/
theorem splitAt?_eq_none_iff {w s : Text} (hw : w ≠ []) :
    splitAt? w s = none ↔ ¬ w <:+: s := by
  induction s with
  | nil => simp [splitAt?, hw]
  | cons c s ih =>
    rw [splitAt?, List.infix_cons_iff]
    cases h : after? w (c :: s) with
    | some r => simp [after?_eq_some.mp h]
    | none =>
      have apart : ¬ w <+: c :: s := by
        rintro ⟨r, hr⟩
        rw [after?_eq_some.mpr hr.symm] at h
        cases h
      simp [apart, ih]

/-- The text before the first occurrence of a mark has none. -/
theorem not_infix_of_splitAt? {w s a r : Text} (hw : w ≠ []) (h : splitAt? w s = some (a, r)) :
    ¬ w <:+: a := by
  induction s generalizing a with
  | nil => simp [splitAt?, hw] at h
  | cons c s ih =>
    have whole := splitAt?_eq h
    rw [splitAt?] at h
    cases e : after? w (c :: s) with
    | some t =>
      rw [e] at h
      cases h
      simpa using hw
    | none =>
      rw [e] at h
      obtain ⟨⟨a, r⟩, ha, hx⟩ := Option.map_eq_some_iff.mp h
      cases hx
      rw [List.infix_cons_iff]
      rintro (⟨t, ht⟩ | inside)
      · rw [whole, ← ht, List.append_assoc, List.append_assoc, after?_eq_some.mpr rfl] at e
        cases e
      · exact ih ha inside

theorem stretches_cons (c : Char) (r : Text) :
    stretches (c :: r) = (Stretch.first c r).1 :: stretches (Stretch.first c r).2 := by
  rw [stretches]

/-- A body that is divided into stretches is read as these. -/
theorem Divides.stretches_eq (h : Divides s ps) : stretches s = ps := by
  induction h with
  | nil => rw [stretches]
  | plain hq ho _ ih => rw [stretches_cons, Stretch.first_of_plain hq ho, ih]
  | literal hq hb _ ih =>
    rw [List.cons_append, stretches_cons, Stretch.first_of_startsLiteral hq,
      hb.afterQuote_closed hq, ih]
    rfl
  | unclosed hq hb he =>
    rw [List.cons_append, stretches_cons, Stretch.first_of_startsLiteral hq,
      hb.afterQuote_unclosed hq he, stretches]
  | block hb _ ih =>
    rw [stretches_cons, Stretch.first_block, List.append_assoc,
      splitAt?_append_self (by simp) (not_infix_asterisk hb), ih]
  | @openBlock b hb =>
    have none : splitAt? ['*', '/'] b = none := (splitAt?_eq_none_iff (by simp)).mpr hb
    rw [stretches_cons, Stretch.first_block, none, stretches]
  | @line b s ps hb ends _ ih =>
    have inside : ∀ c ∈ b, decide (c ≠ '\n') = true := fun c hc =>
      decide_eq_true fun e => hb (e ▸ hc)
    have stops : ∀ c, s.head? = some c → decide (c ≠ '\n') = false := fun c hc => by
      simp [ends c hc]
    rw [stretches_cons, Stretch.first_line, takeWhile_append_of_head inside stops,
      dropWhile_append_of_head inside stops, ih]

/-- What begins with a quote is a literal, closed or not. -/
theorem Divides.of_startsLiteral {r : Text} (hq : startsLiteral q)
    (h : Divides (Stretch.first q r).2 ps) : Divides (q :: r) ((Stretch.first q r).1 :: ps) := by
  rw [Stretch.first_of_startsLiteral hq] at h ⊢
  rcases exists_quotedBody q r with ⟨b, t, hb, rfl⟩ | ⟨b, e, hb, he, rfl⟩
  · rw [hb.afterQuote_closed hq] at h ⊢
    exact .literal hq hb h
  · rw [hb.afterQuote_unclosed hq he] at h ⊢
    cases h
    exact .unclosed hq hb he

/-- What begins as a block comment is one up to the first mark that ends it, or to the end. -/
theorem Divides.of_block {r : Text} (h : Divides (Stretch.first '/' ('*' :: r)).2 ps) :
    Divides ('/' :: '*' :: r) ((Stretch.first '/' ('*' :: r)).1 :: ps) := by
  rw [Stretch.first_block] at h ⊢
  cases hs : splitAt? ['*', '/'] r with
  | none =>
    rw [hs] at h
    cases h
    exact .openBlock ((splitAt?_eq_none_iff (by simp)).mp hs)
  | some x =>
    obtain ⟨b, t⟩ := x
    rw [hs] at h
    rw [splitAt?_eq hs]
    exact .block (not_infix_of_splitAt? (by simp) hs) h

/-- What begins as a line comment is one up to the line feed. -/
theorem Divides.of_line {r : Text} (h : Divides (Stretch.first '/' ('/' :: r)).2 ps) :
    Divides ('/' :: '/' :: r) ((Stretch.first '/' ('/' :: r)).1 :: ps) := by
  rw [Stretch.first_line] at h ⊢
  have parts : '/' :: '/' :: r = '/' :: '/' ::
      (r.takeWhile (· ≠ '\n') ++ r.dropWhile (· ≠ '\n')) := by
    rw [List.takeWhile_append_dropWhile]
  rw [parts]
  refine .line (fun hm => ?_) (fun c hc => ?_) h
  · simpa using List.mem_takeWhile_imp hm
  · have first := List.head?_dropWhile_not (· ≠ '\n') r
    rw [hc] at first
    simpa using first

/-- A body is divided into its first stretch and those of the rest. -/
theorem Divides.of_first {r : Text} (h : Divides (Stretch.first c r).2 ps) :
    Divides (c :: r) ((Stretch.first c r).1 :: ps) := by
  by_cases hq : startsLiteral c
  · exact .of_startsLiteral hq h
  by_cases ho : opensComment c r
  · obtain ⟨rfl, ho⟩ := ho
    cases r with
    | nil => simp at ho
    | cons d r =>
      simp only [List.head?_cons, Option.some.injEq] at ho
      rcases ho with rfl | rfl
      · exact .of_block h
      · exact .of_line h
  · rw [Stretch.first_of_plain hq ho] at h ⊢
    exact .plain hq ho h

/-- A body is divided into its stretches. -/
theorem divides_stretches (s : Text) : Divides s (stretches s) := by
  induction hk : s.length using Nat.strong_induction_on generalizing s with
  | _ k ih =>
    cases s with
    | nil =>
      rw [stretches]
      exact .nil
    | cons c r =>
      rw [stretches_cons]
      exact .of_first (ih _ (hk ▸ Stretch.length_first c r) _ rfl)

/-! ### Stripping -/

theorem afterCode_of_startsLiteral (hq : startsLiteral q) : afterCode q = .literal q false :=
  if_pos hq

theorem not_opensComment_of_startsLiteral (hq : startsLiteral q) : ¬ opensComment q s := by
  rintro ⟨rfl, -⟩
  rcases hq with h | h <;> cases h

/-- A literal is kept up to the quote that closes it. -/
theorem stripFrom_quotedBody (hq : startsLiteral q) (hb : QuotedBody q b) (s : Text) :
    stripFrom (.literal q false) (b ++ s) = b ++ stripFrom (.literal q false) s := by
  induction hb with
  | nil => rfl
  | @char c b hc he _ ih =>
    have inside : afterLiteral q false c = .literal q false := by simp [afterLiteral, hc, he]
    rw [List.cons_append, stripFrom_literal, inside, ih, List.cons_append]
  | @escape c b _ ih =>
    have escapes : afterLiteral q false '\\' = .literal q true := by
      simp [afterLiteral, ne_backslash hq]
    have inside : afterLiteral q true c = .literal q false := by simp [afterLiteral]
    rw [List.cons_append, List.cons_append, stripFrom_literal, escapes, stripFrom_literal, inside,
      ih, List.cons_append, List.cons_append]

/-- Of a block comment its line feeds are kept; `star` tells that an asterisk stands before. -/
theorem exists_stripFrom_block (star : Bool)
    (hb : ¬ ['*', '/'] <:+: if star then '*' :: b else b) :
    ∃ star', ∀ s, stripFrom (.block star) (b ++ s) =
      b.filter (· == '\n') ++ stripFrom (.block star') s := by
  induction b generalizing star with
  | nil => exact ⟨star, fun _ => rfl⟩
  | cons c b ih =>
    have goes : ¬ (star ∧ c = '/') := by
      rintro ⟨rfl, rfl⟩
      exact hb ⟨[], b, rfl⟩
    have behind : (if c == '*' then '*' :: b else b) <:+
        if star then '*' :: c :: b else c :: b := by
      have tail : (if c == '*' then '*' :: b else b) <:+ c :: b := by
        split
        · next h => rw [eq_of_beq h]
        · exact List.suffix_cons c b
      cases star with
      | false => exact tail
      | true => exact tail.trans (List.suffix_cons _ _)
    obtain ⟨star', h⟩ := ih (c == '*') fun inside => hb (inside.trans behind.isInfix)
    refine ⟨star', fun s => ?_⟩
    rw [List.cons_append, stripFrom_block, afterBlock_of_not goes, h, List.filter_cons]
    by_cases hc : c = '\n' <;> simp [hc]

/-- Of a block comment its line feeds are left. -/
theorem strip_block (hb : ¬ ['*', '/'] <:+: b) (s : Text) :
    stripComments ('/' :: '*' :: (b ++ ['*', '/'] ++ s)) =
      b.filter (· == '\n') ++ stripComments s := by
  obtain ⟨star, h⟩ := exists_stripFrom_block false hb
  rw [stripComments, stripFrom, List.append_assoc, h, List.cons_append, stripFrom_block]
  simp [stripFrom_block, afterBlock, stripComments]

/-- Of a block comment that is not closed its line feeds are left. -/
theorem strip_openBlock (hb : ¬ ['*', '/'] <:+: b) :
    stripComments ('/' :: '*' :: b) = b.filter (· == '\n') := by
  obtain ⟨star, h⟩ := exists_stripFrom_block false hb
  have whole := h []
  rw [List.append_nil, stripFrom, List.append_nil] at whole
  rw [stripComments, stripFrom, whole]

/-- Of a line comment nothing is left. -/
theorem strip_line (hb : '\n' ∉ b) (ends : ∀ c, s.head? = some c → c = '\n') :
    stripComments ('/' :: '/' :: (b ++ s)) = stripComments s := by
  rw [stripComments, stripFrom]
  induction b with
  | nil =>
    cases s with
    | nil => rfl
    | cons c s =>
      obtain rfl : c = '\n' := ends c rfl
      have plain : ¬ opensComment '\n' s := by
        rintro ⟨h, -⟩
        cases h
      rw [List.nil_append, stripFrom, if_pos rfl, stripComments, stripFrom_code plain]
      rfl
  | cons c b ih =>
    obtain ⟨hc, hb⟩ : '\n' ≠ c ∧ '\n' ∉ b := by simpa using hb
    rw [List.cons_append, stripFrom, if_neg hc.symm, ih hb]

/-- Line feeds before a text are stretches of their own. -/
theorem Divides.feeds (h : Divides s ps) {w : Text} (hw : ∀ c ∈ w, c = '\n') :
    Divides (w ++ s) (w.map .plain ++ ps) := by
  induction w with
  | nil => exact h
  | cons c w ih =>
    obtain ⟨rfl, rest⟩ := List.forall_mem_cons.mp hw
    refine .plain (by rintro (h | h) <;> cases h) ?_ (ih rest)
    rintro ⟨h, -⟩
    cases h

/-- The stretches, one after the other, are the text. -/
theorem Divides.concat_eq (h : Divides s ps) : Stretch.concat ps = s := by
  induction h with
  | nil => rfl
  | unclosed | openBlock => simp [Stretch.concat, Stretch.text]
  | plain _ _ _ ih | literal _ _ _ ih | block _ _ ih | line _ _ _ ih =>
    rw [Stretch.concat, List.flatMap_cons, ← Stretch.concat, ih]
    simp [Stretch.text]

/-- **A stripped body is divided into what is left of the stretches.** -/
theorem Divides.strip (h : Divides s ps) : Divides (stripComments s) (ps.flatMap Stretch.left) := by
  have feed (w : Text) : ∀ c ∈ w.filter (· == '\n'), c = '\n' := fun c hc => by
    simpa using (List.mem_filter.mp hc).2
  induction h with
  | nil =>
    rw [stripComments, stripFrom]
    exact .nil
  | @plain c s ps hq ho _ ih =>
    have code : afterCode c = .code := if_neg hq
    rw [stripComments, stripFrom_code ho, code]
    exact .plain hq (not_opensComment_strip ho) ih
  | @literal q b s ps hq hb _ ih =>
    have closes : afterLiteral q false q = .code := by simp [afterLiteral]
    rw [stripComments, List.cons_append, stripFrom_code (not_opensComment_of_startsLiteral hq),
      afterCode_of_startsLiteral hq, stripFrom_quotedBody hq hb, stripFrom_literal, closes]
    exact .literal hq hb ih
  | @unclosed q b e hq hb he =>
    have kept : stripFrom (.literal q false) e = e := by
      rcases he with rfl | rfl <;> simp [stripFrom]
    rw [stripComments, List.cons_append, stripFrom_code (not_opensComment_of_startsLiteral hq),
      afterCode_of_startsLiteral hq, stripFrom_quotedBody hq hb, kept]
    exact .unclosed hq hb he
  | @block b s ps hb _ ih =>
    rw [strip_block hb]
    simpa [Stretch.left] using ih.feeds (feed b)
  | @openBlock b hb =>
    rw [strip_openBlock hb]
    simpa [Stretch.left] using Divides.nil.feeds (feed b)
  | @line b s ps hb ends _ ih =>
    have none : b.filter (· == '\n') = [] :=
      List.filter_eq_nil_iff.mpr fun c hc e => hb (eq_of_beq e ▸ hc)
    rw [strip_line hb ends]
    simpa [Stretch.left, none] using ih

/-! ### What is left -/

namespace Stretch

theorem isComment_of_mem_left {x : Stretch} (h : x ∈ ps.flatMap left) : x.isComment = false := by
  obtain ⟨p, -, h⟩ := List.mem_flatMap.mp h
  cases p with
  | comment t =>
    obtain ⟨c, -, rfl⟩ := List.mem_map.mp h
    rfl
  | plain | literal =>
    rw [List.mem_singleton.mp h]
    rfl

/-- All is left just if there is no comment. -/
theorem flatMap_left_eq_self_iff :
    ps.flatMap left = ps ↔ ∀ p ∈ ps, p.isComment = false := by
  constructor
  · intro h p hp
    rw [← h] at hp
    exact isComment_of_mem_left hp
  · intro h
    have kept : ∀ p ∈ ps, p.left = [p] := fun p hp => by
      cases p with
      | comment t => cases h _ hp
      | plain | literal => rfl
    rw [List.flatMap_congr kept, List.flatMap_singleton']

/-- What is left of a stretch is a part of it, with all of its line feeds. -/
theorem concat_left (p : Stretch) :
    (concat p.left).Sublist p.text ∧ (concat p.left).count '\n' = p.text.count '\n' := by
  cases p with
  | comment t =>
    have feeds : concat (left (comment t)) = t.filter (· == '\n') := by
      simp [left, concat, text, List.flatMap_map]
    rw [feeds]
    exact ⟨List.filter_sublist, List.count_filter rfl⟩
  | plain | literal => simp [left, concat, text]

theorem concat_flatMap_left (ps : List Stretch) :
    (concat (ps.flatMap left)).Sublist (concat ps) ∧
      (concat (ps.flatMap left)).count '\n' = (concat ps).count '\n' := by
  induction ps with
  | nil => exact ⟨List.Sublist.refl _, rfl⟩
  | cons p ps ih =>
    obtain ⟨sublist, count⟩ := concat_left p
    have parts : concat ((p :: ps).flatMap left) = concat p.left ++ concat (ps.flatMap left) := by
      simp [concat]
    have whole : concat (p :: ps) = p.text ++ concat ps := by simp [concat]
    rw [parts, whole, List.count_append, List.count_append, count, ih.2]
    exact ⟨sublist.append ih.1, rfl⟩

/-- All literals are left, in their order. -/
theorem filter_isLiteral_left (ps : List Stretch) :
    (ps.flatMap left).filter isLiteral = ps.filter isLiteral := by
  have each (p : Stretch) : p.left.filter isLiteral = [p].filter isLiteral := by
    cases p with
    | comment t => simp [left, isLiteral]
    | plain | literal => rfl
  induction ps with
  | nil => rfl
  | cons p ps ih =>
    rw [List.flatMap_cons, List.filter_append, each, ih, ← List.filter_append]
    rfl

end Stretch

/-- A text is its own stripped text just if it has no comment. -/
theorem stripComments_eq_self_iff :
    stripComments s = s ↔ ∀ p ∈ stretches s, p.isComment = false := by
  have divided := divides_stretches s
  rw [← Stretch.flatMap_left_eq_self_iff]
  constructor
  · intro same
    rw [← divided.strip.stretches_eq, same]
  · intro same
    rw [← divided.strip.concat_eq, same, divided.concat_eq]

/-- **Stripping is a stable projection.**  A stripped body is a part of the body, in order, with the
same number of line feeds, and is not stripped any further; nothing is stripped exactly if no
stretch of the body is a comment.  The stretches that have been left are those of the stripped body,
the literals among them unchanged. -/
theorem stripComments_stable (s : Text) :
    (stripComments s).Sublist s ∧
      (stripComments s).count '\n' = s.count '\n' ∧
      stripComments (stripComments s) = stripComments s ∧
      (stripComments s = s ↔ ∀ p ∈ stretches s, p.isComment = false) ∧
      Stretch.concat (stretches s) = s ∧
      stretches (stripComments s) = (stretches s).flatMap Stretch.left ∧
      (stretches (stripComments s)).filter Stretch.isLiteral =
        (stretches s).filter Stretch.isLiteral := by
  have divided := divides_stretches s
  have whole := divided.concat_eq
  have parts := divided.strip.stretches_eq
  have stripped := Stretch.concat_flatMap_left (stretches s)
  rw [divided.strip.concat_eq, whole] at stripped
  refine ⟨stripped.1, stripped.2, ?_, stripComments_eq_self_iff, whole, parts, ?_⟩
  · rw [stripComments_eq_self_iff, parts]
    exact fun p hp => Stretch.isComment_of_mem_left hp
  · rw [parts, Stretch.filter_isLiteral_left]

/-- An asterisk behind two slashes opens nothing, nor does one in a literal; a block comment leaves
its line feeds. -/
example : stripComments "a//*x*/b\n\"/*\\\"\"/*\n//c" = "a\n\"/*\\\"\"\n".toList := by
  cbv

end VectorWrap.Line
