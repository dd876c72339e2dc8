import VectorWrap.Implementation.Line
import VectorWrap.Proofs.Code.Trivia
import VectorWrap.Proofs.Scan.Sweep

/-!
# The regions of a body

`walk` lists the places of a body with the region that each stands in, as `stripFrom` goes through
them.  What it passes at once, a name or a literal, the scans pass at once as well:

* `strip_append`: a text without comments is kept as it is;
* `literal_parts`: a literal that is closed is kept, and ends for the scans where it ends here;
* `block_parts`: a block comment that is closed leaves line feeds alone, and ends for the scans
  where it ends here.

A place is kept with the region that it stands in, since the same text is read in one way in the
code and in another in a literal.  The places that no comment comes before (`unbroken`) are those up
to which a text and its stripped text are the same.
-/

namespace VectorWrap.Line
open Scan

/-! ### Places -/

section Steps
attribute [local simp] stripFrom

/-- The region after a character of code that opens no comment. -/
def afterCode (c : Char) : Region :=
  if c = '"' ∨ c = '\'' then .literal c false else .code

/-- Where no comment begins, a character of the code is kept. -/
theorem stripFrom_code {c : Char} {s : Text} (h : ¬ opensComment c s) :
    stripFrom .code (c :: s) = c :: stripFrom (afterCode c) s := by
  rw [stripFrom]
  · rfl
  · rintro _ rfl rfl
    exact h ⟨rfl, .inl rfl⟩
  · rintro _ rfl rfl
    exact h ⟨rfl, .inr rfl⟩

/-- The region after a character of a literal. -/
def afterLiteral (q : Char) (escaped : Bool) (c : Char) : Region :=
  if !escaped ∧ c = q then .code else .literal q (!escaped && c == '\\')

theorem stripFrom_literal (q : Char) (escaped : Bool) (c : Char) (s : Text) :
    stripFrom (.literal q escaped) (c :: s) = c :: stripFrom (afterLiteral q escaped c) s := by
  simp [afterLiteral]

/-- The region after a character of a block comment. -/
def afterBlock (star : Bool) (c : Char) : Region :=
  if c = '\n' then .block false else if star ∧ c = '/' then .code else .block (c == '*')

/-- Of a block comment only line feeds are kept. -/
theorem stripFrom_block (star : Bool) (c : Char) (s : Text) :
    stripFrom (.block star) (c :: s) =
      (if c = '\n' then [c] else []) ++ stripFrom (afterBlock star c) s := by
  rw [stripFrom, afterBlock]
  split <;> rfl

/-- Nothing is put in the place of what is taken. -/
theorem stripFrom_subset (g : Region) (s : Text) : stripFrom g s ⊆ s := by
  fun_induction stripFrom g s with
  | case1 => exact List.nil_subset _
  | case2 r ih => exact List.subset_cons_of_subset _ (List.subset_cons_of_subset _ ih)
  | case3 r ih => exact List.subset_cons_of_subset _ (List.subset_cons_of_subset _ ih)
  | case4 c r _ _ ih => exact List.cons_subset_cons c ih
  | case5 q escaped c r ih => exact List.cons_subset_cons c ih
  | case6 star r ih => exact List.cons_subset_cons _ ih
  | case7 star c r _ ih => exact List.subset_cons_of_subset c ih
  | case8 r ih => exact List.cons_subset_cons _ ih
  | case9 c r _ ih => exact List.subset_cons_of_subset c ih

/-- The places of a text that begins in the given region, each with its own. -/
def walk : Region → Text → List (Region × Text)
  | g, [] => [(g, [])]
  | .code, '/' :: '*' :: r => (.code, '/' :: '*' :: r) :: walk (.block false) r
  | .code, '/' :: '/' :: r => (.code, '/' :: '/' :: r) :: walk .line r
  | .code, c :: r => (.code, c :: r) :: walk (afterCode c) r
  | .literal q escaped, c :: r =>
      (.literal q escaped, c :: r) :: walk (afterLiteral q escaped c) r
  | .block star, c :: r => (.block star, c :: r) :: walk (afterBlock star c) r
  | .line, c :: r => (.line, c :: r) :: walk (if c = '\n' then .code else .line) r

attribute [local simp] walk

/-- Behind a character of the code that opens no comment the walk goes on. -/
theorem walk_code {c : Char} {s : Text} (h : ¬ opensComment c s) :
    walk .code (c :: s) = (.code, c :: s) :: walk (afterCode c) s := by
  rw [walk]
  · rintro _ rfl rfl
    exact h ⟨rfl, .inl rfl⟩
  · rintro _ rfl rfl
    exact h ⟨rfl, .inr rfl⟩

theorem walk_literal (q : Char) (escaped : Bool) (c : Char) (s : Text) :
    walk (.literal q escaped) (c :: s) =
      (.literal q escaped, c :: s) :: walk (afterLiteral q escaped c) s := by
  simp

theorem walk_block (star : Bool) (c : Char) (s : Text) :
    walk (.block star) (c :: s) = (.block star, c :: s) :: walk (afterBlock star c) s := by
  simp

end Steps

/-- A walk goes on with another one, behind in both texts, or ends. -/
theorem walk_cases (g : Region) (s : Text) :
    walk g s = [(g, s)] ∨ ∃ g' s', walk g s = (g, s) :: walk g' s' ∧ s'.length < s.length ∧
      s' <:+ s ∧ stripFrom g' s' <:+ stripFrom g s := by
  fun_cases walk g s with
  | case1 => exact .inl rfl
  | case2 r =>
    exact .inr ⟨_, r, rfl, by simp only [List.length_cons]; omega, ⟨['/', '*'], rfl⟩,
      by rw [stripFrom]⟩
  | case3 r =>
    exact .inr ⟨_, r, rfl, by simp only [List.length_cons]; omega, ⟨['/', '/'], rfl⟩,
      by rw [stripFrom]⟩
  | case4 c r h₁ h₂ =>
    refine .inr ⟨_, r, rfl, by simp, List.suffix_cons c r, ?_⟩
    rw [stripFrom]
    · exact List.suffix_cons _ _
    · exact h₁
    · exact h₂
  | case5 q escaped c r =>
    refine .inr ⟨_, r, rfl, by simp, List.suffix_cons c r, ?_⟩
    rw [stripFrom_literal]
    exact List.suffix_cons _ _
  | case6 star c r =>
    refine .inr ⟨_, r, rfl, by simp, List.suffix_cons c r, ?_⟩
    rw [stripFrom_block]
    exact List.suffix_append _ _
  | case7 c r =>
    refine .inr ⟨_, r, rfl, by simp, List.suffix_cons c r, ?_⟩
    rw [stripFrom]
    split
    · exact List.suffix_cons _ _
    · exact List.suffix_rfl

/-- The place where a walk begins is one of its places. -/
theorem mem_walk (g : Region) (s : Text) : (g, s) ∈ walk g s := by
  rcases walk_cases g s with h | ⟨_, _, h, -⟩ <;> simp [h]

/-- What is reached from a place of a walk is a place of that walk. -/
theorem walk_subset {g g' : Region} {s z : Text} (h : (g', z) ∈ walk g s) :
    walk g' z ⊆ walk g s := by
  induction hk : s.length using Nat.strong_induction_on generalizing g s with
  | _ k ih =>
    rcases walk_cases g s with e | ⟨g₁, s₁, e, hl, -⟩
    · rw [e, List.mem_singleton] at h
      cases h
      exact List.Subset.refl _
    · rw [e] at h ⊢
      rcases List.mem_cons.mp h with h | h
      · cases h
        rw [e]
        exact List.Subset.refl _
      · exact fun p hp => List.mem_cons_of_mem _ (ih s₁.length (hk ▸ hl) h rfl hp)

/-- A character of code that begins neither a comment nor a literal is kept. -/
theorem kept {c : Char} {s : Text} (hq : isQuote c = false) (ho : ¬ opensComment c s) :
    stripComments (c :: s) = c :: stripComments s ∧ (.code, s) ∈ walk .code (c :: s) := by
  have ha : afterCode c = .code := if_neg (by simpa [isQuote] using hq)
  rw [stripComments, stripFrom_code ho, walk_code ho, ha]
  exact ⟨rfl, List.mem_cons_of_mem _ (mem_walk _ _)⟩

/-- Stripping brings no comment about. -/
theorem not_opensComment_strip {c : Char} {s : Text} (ho : ¬ opensComment c s) :
    ¬ opensComment c (stripComments s) := by
  rintro ⟨rfl, h⟩
  cases s with
  | nil => exact ho ⟨rfl, h⟩
  | cons d s =>
    by_cases hd : opensComment d s
    · exact ho ⟨rfl, .inr (by rw [List.head?_cons, hd.1])⟩
    · rw [stripComments, stripFrom_code hd] at h
      exact ho ⟨rfl, h⟩

/-! ### The order of places -/

/-- At every place stands the end of the text, and stripped, the end of the stripped text. -/
theorem suffix_of_mem_walk {g g' : Region} {s z : Text} (h : (g', z) ∈ walk g s) :
    z <:+ s ∧ stripFrom g' z <:+ stripFrom g s := by
  induction hk : s.length using Nat.strong_induction_on generalizing g s with
  | _ k ih =>
    rcases walk_cases g s with e | ⟨g₁, s₁, e, hl, hs, hs'⟩
    · rw [e, List.mem_singleton] at h
      cases h
      exact ⟨List.suffix_rfl, List.suffix_rfl⟩
    · rw [e] at h
      rcases List.mem_cons.mp h with h | h
      · cases h
        exact ⟨List.suffix_rfl, List.suffix_rfl⟩
      · obtain ⟨h₁, h₂⟩ := ih s₁.length (hk ▸ hl) h rfl
        exact ⟨h₁.trans hs, h₂.trans hs'⟩

/-- Of two places of a walk one is reached from the other. -/
theorem walk_total {g : Region} {s : Text} {p q : Region × Text} (hp : p ∈ walk g s)
    (hq : q ∈ walk g s) : q ∈ walk p.1 p.2 ∨ p ∈ walk q.1 q.2 := by
  induction hk : s.length using Nat.strong_induction_on generalizing g s with
  | _ k ih =>
    rcases walk_cases g s with e | ⟨g₁, s₁, e, hl, -⟩
    · rw [e, List.mem_singleton] at hp hq
      subst hp hq
      exact .inl (mem_walk g s)
    -- unless one of them is where the walk begins, both are places of the walk behind it
    · by_cases hp' : p = (g, s)
      · subst hp'
        exact .inl hq
      · by_cases hq' : q = (g, s)
        · subst hq'
          exact .inr hp
        · rw [e] at hp hq
          exact ih s₁.length (hk ▸ hl) ((List.mem_cons.mp hp).resolve_left hp')
            ((List.mem_cons.mp hq).resolve_left hq') rfl

/-- Stripping keeps the order of two places of the code if a character of code stands at the
later one. -/
theorem byteLength_strip_le_iff {body x s : Text} {c : Char} (ho : ¬ opensComment c s)
    (hx : (.code, x) ∈ walk .code body) (hy : (.code, c :: s) ∈ walk .code body) :
    Text.byteLength (stripComments (c :: s)) ≤ Text.byteLength (stripComments x) ↔
      Text.byteLength (c :: s) ≤ Text.byteLength x := by
  rcases walk_total hx hy with h | h
  · obtain ⟨h₁, h₂⟩ := suffix_of_mem_walk h
    exact iff_of_true (Text.byteLength_le_of_suffix h₂) (Text.byteLength_le_of_suffix h₁)
  · rw [walk_code ho] at h
    rcases List.mem_cons.mp h with h | h
    · cases h
      exact iff_of_true le_rfl le_rfl
    · -- `c` is kept, so that both texts are longer than what follows it
      obtain ⟨h₁, h₂⟩ := suffix_of_mem_walk h
      have h₃ := Text.byteLength_le_of_suffix h₁
      have h₄ := Text.byteLength_le_of_suffix h₂
      have hc := c.utf8Size_pos
      rw [stripComments, stripFrom_code ho]
      simp only [Text.byteLength]
      exact iff_of_false (by rw [stripComments]; omega) (by omega)

/-! ### Texts without comments -/

/-- Characters of a comment are dropped. -/
def Region.isComment : Region → Bool
  | .block _ | .line => true
  | _ => false

/-- What is left of a text at the places of its code up to its first comment. -/
def unbroken (s : Text) : List Text :=
  (((walk .code s).takeWhile (!·.1.isComment)).filter (·.1 = .code)).map Prod.snd

theorem mem_unbroken {s r : Text} :
    r ∈ unbroken s ↔ (.code, r) ∈ (walk .code s).takeWhile (!·.1.isComment) := by
  simp [unbroken]

theorem code_of_mem_unbroken {s r : Text} (h : r ∈ unbroken s) : (.code, r) ∈ walk .code s :=
  List.takeWhile_subset _ (mem_unbroken.mp h)

/-- Outside comments a character is kept. -/
theorem step_text {g : Region} (hg : g.isComment = false) {c : Char} {s : Text}
    (h : ¬ (g = .code ∧ opensComment c s)) :
    ∃ g', g'.isComment = false ∧ walk g (c :: s) = (g, c :: s) :: walk g' s ∧
      stripFrom g (c :: s) = c :: stripFrom g' s := by
  cases g with
  | code =>
    have h' : ¬ opensComment c s := fun ho => h ⟨rfl, ho⟩
    refine ⟨afterCode c, ?_, walk_code h', stripFrom_code h'⟩
    unfold afterCode
    split <;> rfl
  | literal q escaped =>
    refine ⟨afterLiteral q escaped c, ?_, walk_literal q escaped c s,
      stripFrom_literal q escaped c s⟩
    unfold afterLiteral
    split <;> rfl
  | block | line => cases hg

/-- What opens a comment is one place, and the next one is in the comment. -/
theorem step_comment {c : Char} {s : Text} (h : opensComment c s) :
    ∃ g r, g.isComment = true ∧ walk .code (c :: s) = (.code, c :: s) :: walk g r := by
  obtain ⟨rfl, h⟩ := h
  cases s with
  | nil => simp at h
  | cons d s =>
    simp only [List.head?_cons, Option.some.injEq] at h
    rcases h with rfl | rfl
    · exact ⟨.block false, s, rfl, rfl⟩
    · exact ⟨.line, s, rfl, rfl⟩

/-- A text is kept as it is up to its first comment. -/
theorem strip_append_of_mem {g : Region} (hg : g.isComment = false) {s r : Text}
    (h : (.code, r) ∈ (walk g s).takeWhile (!·.1.isComment)) :
    ∃ w, s = w ++ r ∧ stripFrom g s = w ++ stripComments r := by
  have here : ∀ g s, (Region.code, r) = (g, s) →
      ∃ w, s = w ++ r ∧ stripFrom g s = w ++ stripComments r := fun g s e => by
    cases e
    exact ⟨[], rfl, rfl⟩
  induction s generalizing g with
  | nil =>
    rw [walk, List.takeWhile_cons_of_pos (by simp [hg]), List.takeWhile_nil,
      List.mem_singleton] at h
    exact here _ _ h
  | cons c s ih =>
    by_cases ho : g = .code ∧ opensComment c s
    · -- the place before a comment is the last one that counts
      obtain ⟨rfl, ho⟩ := ho
      obtain ⟨g', t, hg', e⟩ := step_comment ho
      obtain ⟨l, e'⟩ : ∃ l, walk g' t = (g', t) :: l := by
        rcases walk_cases g' t with e' | ⟨_, _, e', -⟩ <;> exact ⟨_, e'⟩
      rw [e, e', List.takeWhile_cons_of_pos (by simp [hg]),
        List.takeWhile_cons_of_neg (by simp [hg']), List.mem_singleton] at h
      exact here _ _ h
    · obtain ⟨g', hg', e, e'⟩ := step_text hg ho
      rw [e, List.takeWhile_cons_of_pos (by simp [hg])] at h
      rcases List.mem_cons.mp h with h | h
      · exact here _ _ h
      · obtain ⟨w, rfl, hw⟩ := ih hg' h
        exact ⟨c :: w, rfl, by rw [e', hw]; rfl⟩

theorem strip_append {s r : Text} (h : r ∈ unbroken s) :
    ∃ w, s = w ++ r ∧ stripComments s = w ++ stripComments r :=
  strip_append_of_mem rfl (mem_unbroken.mp h)

/-! ### Closed literals and comments -/

/-- A text may end here. -/
def Region.closes : Region → Bool
  | .code | .line => true
  | _ => false

/-- A backslash has just been read in a literal. -/
def Region.escapes : Region → Bool
  | .literal _ escaped => escaped
  | _ => false

/-- Every literal and every block comment that begins in a text is closed in it. -/
def Terminated (s : Text) : Prop :=
  ∀ p ∈ walk .code s, p.2 = [] → p.1.closes

instance {s : Text} : Decidable (Terminated s) :=
  inferInstanceAs (Decidable (∀ p ∈ walk .code s, _))

/-- From a place of the code on, all that was opened is closed. -/
theorem Terminated.of_place {s r : Text} (h : Terminated s) (hr : (.code, r) ∈ walk .code s) :
    Terminated r :=
  fun p hp => h p (walk_subset hr hp)

/-- A literal is kept, and ends for the scans where it ends here unless it escapes layout. -/
theorem literal_parts {q : Char} {escaped : Bool} {s : Text}
    (hend : ∀ p ∈ walk (.literal q escaped) s, p.2 = [] → p.1.closes)
    (hesc : ∀ p ∈ walk (.literal q escaped) s, p.1.escapes →
      p.2.head?.any Text.isLayout = false) :
    ∃ w r, s = w ++ r ∧ r.length < s.length ∧ (.code, r) ∈ walk (.literal q escaped) s ∧
      stripFrom (.literal q escaped) s = w ++ stripComments r ∧
      ∀ x, closeQuote? .free q escaped (w ++ x) = some x := by
  induction s generalizing escaped with
  | nil => cases hend _ (mem_walk _ _) rfl
  | cons c s ih =>
    rw [walk_literal, stripFrom_literal]
    rw [walk_literal] at hend hesc
    by_cases h : !escaped ∧ c = q
    · obtain ⟨he, rfl⟩ := h
      have ha : afterLiteral c escaped c = .code := if_pos ⟨he, rfl⟩
      rw [ha]
      refine ⟨[c], s, rfl, by simp, List.mem_cons_of_mem _ (mem_walk _ _), rfl, fun x => ?_⟩
      simp only [Bool.not_eq_true'] at he
      simp [closeQuote?, he]
    · have ha : afterLiteral q escaped c = .literal q (!escaped && c == '\\') := if_neg h
      rw [ha] at hend hesc ⊢
      obtain ⟨w, r, rfl, hl, hm, hk, hq⟩ := ih (fun p hp => hend p (List.mem_cons_of_mem _ hp))
        fun p hp => hesc p (List.mem_cons_of_mem _ hp)
      refine ⟨c :: w, r, rfl, Text.length_lt_cons_append c w r, List.mem_cons_of_mem _ hm,
        by rw [hk]; rfl, fun x => ?_⟩
      cases escaped with
      | false =>
        have hc : c ≠ q := fun e => h ⟨rfl, e⟩
        simpa [closeQuote?, hc] using hq x
      | true =>
        -- the scans look for the escaped character behind layout, but there is none here
        have hc : Text.isLayout c = false := by simpa using hesc _ List.mem_cons_self rfl
        simpa [closeQuote?, hc] using hq x

theorem splitAt?_cons {w s a r : Text} {c : Char} (hn : Text.after? w (c :: s) = none)
    (h : splitAt? w s = some (a, r)) : splitAt? w (c :: s) = some (c :: a, r) := by
  simp [splitAt?, hn, h]

/-- A block comment goes on until an asterisk and a slash. -/
theorem afterBlock_of_not {star : Bool} {c : Char} (h : ¬ (star ∧ c = '/')) :
    afterBlock star c = .block (c == '*') := by
  unfold afterBlock
  split
  · next hc => simp [hc]
  · rfl

/-- One character further into a block comment its end is found where it was. -/
theorem splitAt?_block {star : Bool} {c : Char} {s r : Text} (h : ¬ (star ∧ c = '/'))
    (he : ∃ a, splitAt? "*/" (if c == '*' then '*' :: s else s) = some (a, r)) :
    ∃ a, splitAt? "*/" (if star then '*' :: c :: s else c :: s) = some (a, r) := by
  obtain ⟨a, he⟩ := he
  have hc : ∃ a, splitAt? "*/" (c :: s) = some (a, r) := by
    by_cases hstar : c = '*'
    · subst hstar
      exact ⟨a, by simpa using he⟩
    · refine ⟨c :: a, splitAt?_cons (by simp [Text.after?, Ne.symm hstar]) ?_⟩
      simpa [hstar] using he
  cases star with
  | false => exact hc
  | true =>
    have hslash : c ≠ '/' := fun e => h ⟨rfl, e⟩
    obtain ⟨a, he⟩ := hc
    exact ⟨'*' :: a, splitAt?_cons (by simp [Text.after?, Ne.symm hslash]) he⟩

/-- Of a block comment line feeds are left, and it ends for the scans where it ends here. -/
theorem block_parts {star : Bool} {s : Text}
    (hend : ∀ p ∈ walk (.block star) s, p.2 = [] → p.1.closes) :
    ∃ w r, (∀ c ∈ w, c = '\n') ∧ r.length < s.length ∧ (.code, r) ∈ walk (.block star) s ∧
      stripFrom (.block star) s = w ++ stripComments r ∧
      ∃ a, splitAt? "*/" (if star then '*' :: s else s) = some (a, r) := by
  induction s generalizing star with
  | nil => cases hend _ (mem_walk _ _) rfl
  | cons c s ih =>
    rw [walk_block] at hend ⊢
    rw [stripFrom_block]
    by_cases h : star ∧ c = '/'
    · -- the comment is closed here
      obtain ⟨rfl, rfl⟩ := h
      refine ⟨[], s, by simp, by simp, List.mem_cons_of_mem _ (mem_walk _ _), rfl, [], ?_⟩
      simp [splitAt?, Text.after?]
    · rw [afterBlock_of_not h] at hend ⊢
      obtain ⟨w, r, hb, hl, hm, hk, he⟩ := ih fun p hp => hend p (List.mem_cons_of_mem _ hp)
      refine ⟨(if c = '\n' then [c] else []) ++ w, r, ?_, Nat.lt_succ_of_lt hl,
        List.mem_cons_of_mem _ hm, by rw [hk, List.append_assoc], splitAt?_block h he⟩
      intro d hd
      rcases List.mem_append.mp hd with hd | hd
      · split at hd
        · next hn => rwa [List.mem_singleton.mp hd]
        · cases hd
      · exact hb d hd

end VectorWrap.Line
