import VectorWrap.Proofs.Code.Tokens

/-!
# Statements and the heads that govern them

The tokens of C code make statements, each under the heads of the conditionals and loops that it is
governed by.  `Reader.read` finds them from left to right: a head waits for one statement, a block
is one statement, and an `else` goes on with the nearest `if` whose statement has just ended.  The
braces of what can be read are balanced (`bracesMatch_of_read`).

A `Tree` is the code of a body together with what is taken out of it: the braces of a `bare` block,
and all of a part that is `cut`.  A sound tree is read as written (`run_tokens`), and so is what is
left of it (`Tree.kept`) as long as that is sound; then every statement that is left is governed by
the heads that governed it (`statements_kept`).

Both parts are inductions on the data.  For braces it is on the tokens, with the open blocks of the
reader as the depth (`braceDepth?_step`, `braceDepth?_run`).  For trees it is on the tree, and what
is carried is `ReadIn`: read in any frames, the tokens of the tree give its statements under the
heads of these frames and leave the frames as behind one statement (`readIn_block`, `readIn_headed`,
`readIn_either`).
-/

namespace VectorWrap

/-- The tokens of a conditional or a loop before its statement; of an `else` also those of the `if`
that it belongs to. -/
abbrev Head := List Token

namespace Token

/-- The token is a blank. -/
def isSpace : Token → Bool
  | .mark c => Text.isBlank c
  | _ => false

/-- Opens a block. -/
def opening : Token := .mark '\x7b'

/-- Closes a block. -/
def closing : Token := .mark '\x7d'

/-- Ends a statement. -/
def semicolon : Token := .mark ';'

/-- Begins a conditional. -/
def ifWord : Token := .identifier "if".toList

/-- Goes on with a conditional. -/
def elseWord : Token := .identifier "else".toList

/-- Is the head of a loop that has its condition at the end. -/
def doWord : Token := .identifier "do".toList

/-- The words of heads that end with a parenthesis. -/
def headWords : List Token :=
  [ifWord, .identifier "for".toList, .identifier "while".toList, .identifier "switch".toList]

/-- What closes the parenthesis, bracket or brace that the token opens. -/
def closer? : Token → Option Char
  | .mark '(' => some ')'
  | .mark '[' => some ']'
  | .mark '\x7b' => some '\x7d'
  | _ => none

/-- The parenthesis, bracket or brace that the token is, if it closes one. -/
def closes? : Token → Option Char
  | .mark ')' => some ')'
  | .mark ']' => some ']'
  | .mark '\x7d' => some '\x7d'
  | _ => none

theorem closer?_eq_brace {t : Token} : closer? t = some '\x7d' ↔ t = opening := by
  unfold closer?
  split <;> simp_all [opening]

theorem closes?_eq_brace {t : Token} : closes? t = some '\x7d' ↔ t = closing := by
  unfold closes?
  split <;> simp_all [closing]

/-- Stands between statements and is part of none. -/
def isBetween (t : Token) : Bool :=
  t == opening || t == closing || t == elseWord

end Token

/-- The tokens of a text without its blanks. -/
def Text.code (s : Text) : List Token :=
  (tokens s).filter (!·.isSpace)

open Token

/-! ### Phrases -/

/-- A statement and the heads that it is governed by, the innermost first. -/
structure Governed where
  statement : List Token
  heads : List Head
  deriving DecidableEq

/-- A statement or a head as far as it has been read: its tokens, the last first, and what is still
to be closed in it. -/
structure Part where
  tokens : List Token := []
  due : List Char := []
  deriving DecidableEq

namespace Part

/-- What a part becomes with one token more. -/
inductive Outcome where
  | more (p : Part)
  | head (h : Head)
  | statement (ts : List Token)
  deriving DecidableEq

/-- Reads the next token of a part. -/
def next (p : Part) (t : Token) : Option Outcome :=
  match closes? t, p.due with
  | some c, d :: due =>
      if c ≠ d then none
      else if due = [] ∧ c = ')' ∧ p.tokens.getLast?.any headWords.contains then
        some (.head (t :: p.tokens).reverse)
      else some (.more ⟨t :: p.tokens, due⟩)
  | some _, [] => none
  | none, due =>
      if due = [] ∧ t = semicolon then some (.statement (t :: p.tokens).reverse)
      else if p = {} ∧ t = doWord then some (.head [t])
      else some (.more ⟨t :: p.tokens, (closer? t).toList ++ due⟩)

/-- What the part is with the tokens, if it ends with the last of them. -/
def scan (p : Part) : List Token → Option Outcome
  | [] => none
  | t :: ts =>
    match p.next t with
    | some (.more q) => q.scan ts
    | some x => if ts = [] then some x else none
    | none => none

/-- The head or statement that the tokens are. -/
def phrase? (ts : List Token) : Option Outcome :=
  if ts.head?.any isBetween then none else ({} : Part).scan ts

/-- A part that goes on is no longer empty. -/
theorem ne_of_next {p q : Part} {t : Token} (h : p.next t = some (.more q)) :
    q ≠ {} := by
  unfold next at h
  split at h
  · split_ifs at h <;> cases h
    simp
  · cases h
  · split_ifs at h <;> cases h
    simp

end Part

/-! ### Reading -/

/-- What is open around a statement. -/
inductive Frame where
  | head (h : Head)
  | block
  deriving DecidableEq

namespace Frame

def head? : Frame → Option Head
  | .head h => some h
  | .block => none

/-- The heads that end with a statement in the frames, and the frames around them. -/
def ends : List Frame → List Head × List Frame
  | .head h :: fs => (h :: (ends fs).1, (ends fs).2)
  | fs => ([], fs)

/-- The heads that end with a statement and what is left are all frames. -/
theorem append_ends (fs : List Frame) : (ends fs).1.map .head ++ (ends fs).2 = fs := by
  induction fs with
  | nil => rfl
  | cons f fs ih =>
    cases f with
    | head h => simp [ends, ih]
    | block => rfl

/-- The number of open blocks. -/
def depth (fs : List Frame) : Nat :=
  fs.count .block

/-- Heads are no open blocks, so none is closed where a statement ends. -/
theorem depth_ends (fs : List Frame) : depth (ends fs).2 = depth fs := by
  induction fs with
  | nil => rfl
  | cons f fs ih =>
    cases f with
    | head h => simpa [ends, depth] using ih
    | block => rfl

/-- Heads do not count as open blocks. -/
theorem depth_heads (hs : List Head) (fs : List Frame) :
    depth (hs.map .head ++ fs) = depth fs := by
  induction hs with
  | nil => rfl
  | cons h hs ih => simpa [depth] using ih

end Frame

/-- The state of a reading. -/
structure Reader where
  /-- What is open, the innermost first. -/
  frames : List Frame := []
  /-- Right behind a statement, the heads that ended with it. -/
  closed? : Option (List Head) := none
  part : Part := {}
  deriving DecidableEq

namespace Reader

def heads (fs : List Frame) : List Head :=
  fs.filterMap Frame.head?

/-- Behind a statement that stands in the frames. -/
def behind (fs : List Frame) : Reader :=
  { frames := (Frame.ends fs).2, closed? := some (Frame.ends fs).1 }

def isIf (h : Head) : Bool :=
  h.head? == some ifWord

/-- The `if` that an `else` goes on with, and the heads around it. -/
def continued? : List Head → Option (Head × List Head)
  | [] => none
  | h :: hs => if isIf h then some (h, hs) else continued? hs

/-- Reads a token that stands between statements. -/
def between (r : Reader) (t : Token) : Option Reader :=
  if t = opening then some { frames := .block :: r.frames }
  else if t = closing then
    match r.frames with
    | .block :: fs => some (behind fs)
    | _ => none
  else (r.closed?.bind continued?).map fun (h, outer) =>
    { frames := .head (t :: h) :: (outer.map .head ++ r.frames) }

/-- The state with what its part has become. -/
def take (r : Reader) : Part.Outcome → Reader × List Governed
  | .more p => ({ r with closed? := none, part := p }, [])
  | .head h => ({ frames := .head h :: r.frames }, [])
  | .statement ts => (behind r.frames, [⟨ts, heads r.frames⟩])

/-- Reads one token; gives the statement that ends with it, if one does. -/
def step (r : Reader) (t : Token) : Option (Reader × List Governed) :=
  if r.part = {} ∧ isBetween t then (r.between t).map (·, [])
  else (r.part.next t).map r.take

/-- Reads tokens; gives the statements that end in them. -/
def run : Reader → List Token → Option (Reader × List Governed)
  | r, [] => some (r, [])
  | r, t :: ts => (r.step t).bind fun x => (run x.1 ts).map fun y => (y.1, x.2 ++ y.2)

/-- Nothing is open. -/
def AtRest (r : Reader) : Prop :=
  r.frames = [] ∧ r.part = {}

instance (r : Reader) : Decidable r.AtRest :=
  inferInstanceAs (Decidable (_ ∧ _))

/-- The statements that tokens make, each with its heads. -/
def read (ts : List Token) : Option (List Governed) :=
  (run {} ts).bind fun x => if x.1.AtRest then some x.2 else none

/-- A run goes by its first token and then by the rest. -/
theorem run_cons_eq_some {r r₂ : Reader} {t : Token} {ts : List Token} {o : List Governed} :
    run r (t :: ts) = some (r₂, o) ↔
      ∃ r₁ o₁ o₂, r.step t = some (r₁, o₁) ∧ run r₁ ts = some (r₂, o₂) ∧ o = o₁ ++ o₂ := by
  simp only [run, Option.bind_eq_some_iff, Option.map_eq_some_iff, Prod.exists, Prod.mk.injEq]
  grind

/-- A run over two lists goes by the first and then by the second. -/
theorem run_append_eq_some {r r₂ : Reader} {a b : List Token} {o : List Governed} :
    run r (a ++ b) = some (r₂, o) ↔
      ∃ r₁ o₁ o₂, run r a = some (r₁, o₁) ∧ run r₁ b = some (r₂, o₂) ∧ o = o₁ ++ o₂ := by
  induction a generalizing r o with
  | nil =>
    refine ⟨fun h => ⟨r, [], o, rfl, h, rfl⟩, ?_⟩
    rintro ⟨r₁, o₁, o₂, h, hb, rfl⟩
    cases h
    exact hb
  | cons t a ih =>
    simp only [List.cons_append, run_cons_eq_some, ih]
    constructor
    · rintro ⟨r₁, o₁, _, hs, ⟨r', o₂, o₃, ha, hb, rfl⟩, rfl⟩
      exact ⟨r', o₁ ++ o₂, o₃, ⟨r₁, o₁, o₂, hs, ha, rfl⟩, hb, (List.append_assoc ..).symm⟩
    · rintro ⟨r', _, o₃, ⟨r₁, o₁, o₂, hs, ha, rfl⟩, hb, rfl⟩
      exact ⟨r₁, o₁, o₂ ++ o₃, hs, ⟨r', o₂, o₃, ha, hb, rfl⟩, List.append_assoc ..⟩

theorem step_part {r : Reader} {t : Token} (h : r.part ≠ {} ∨ isBetween t = false) :
    r.step t = (r.part.next t).map r.take :=
  if_neg fun ⟨hp, ht⟩ => h.elim (· hp) fun h => by simp [h] at ht

theorem take_more (r : Reader) (p : Part) (x : Part.Outcome) :
    (r.take (.more p)).1.take x = r.take x := by
  cases x <;> rfl

/-- An `else` goes on with the nearest `if`, which it waits for a statement with. -/
theorem step_else (fs : List Frame) {hs outer : List Head} {h : Head}
    (found : continued? hs = some (h, outer)) : step ⟨fs, some hs, {}⟩ elseWord =
      some (⟨.head (elseWord :: h) :: (outer.map .head ++ fs), none, {}⟩, []) := by
  have word : between ⟨fs, some hs, {}⟩ elseWord =
      some ⟨.head (elseWord :: h) :: (outer.map .head ++ fs), none, {}⟩ := by
    rw [between, if_neg (by decide), if_neg (by decide), Option.bind_some, found, Option.map_some]
  rw [step, if_pos ⟨rfl, by decide⟩, word, Option.map_some]

/-- A part that is scanned to its end is read as what it is. -/
theorem run_scan {r : Reader} {ts : List Token} {x : Part.Outcome}
    (h : r.part.scan ts = some x) (hr : r.part ≠ {} ∨ ts.head?.any isBetween = false) :
    run r ts = some (r.take x) := by
  induction ts generalizing r with
  | nil => cases h
  | cons t ts ih =>
    rw [run, step_part (by simpa using hr)]
    rw [Part.scan] at h
    split at h
    · next q hq =>
      rw [hq, Option.map_some, Option.bind_some,
        ih (r := (r.take (.more q)).1) h (.inl (Part.ne_of_next hq)), take_more]
      rfl
    · next y hy =>
      split_ifs at h with hts
      cases h
      rw [hy, hts]
      simp [run]
    · cases h

/-- A phrase is read as its outcome is taken. -/
theorem run_phrase {ts : List Token} {x : Part.Outcome} (h : Part.phrase? ts = some x)
    (fs : List Frame) (c? : Option (List Head)) :
    run ⟨fs, c?, {}⟩ ts = some (take ⟨fs, c?, {}⟩ x) := by
  unfold Part.phrase? at h
  split_ifs at h with hb
  exact run_scan h (.inr (by simpa using hb))

/-- Heads that are no `if` are passed by an `else`. -/
theorem continued?_append {hs : List Head} (h : ∀ x ∈ hs, isIf x = false) (rest : List Head) :
    continued? (hs ++ rest) = continued? rest := by
  induction hs with
  | nil => rfl
  | cons x hs ih =>
    rw [List.cons_append, continued?, if_neg (by simp [h x]), ih fun y hy => h y (.tail _ hy)]

end Reader

/-! ### Balanced braces -/

/-- The number of blocks that are open behind the tokens, if none is closed that is not open. -/
def braceDepth? : Nat → List Token → Option Nat
  | d, [] => some d
  | d, t :: ts =>
      if t = opening then braceDepth? (d + 1) ts
      else if t = closing then
        match d with
        | 0 => none
        | d + 1 => braceDepth? d ts
      else braceDepth? d ts

theorem braceDepth?_opening (d : Nat) (ts : List Token) :
    braceDepth? d (opening :: ts) = braceDepth? (d + 1) ts :=
  if_pos rfl

theorem braceDepth?_closing (d : Nat) (ts : List Token) :
    braceDepth? (d + 1) (closing :: ts) = braceDepth? d ts :=
  rfl

theorem braceDepth?_of_ne {t : Token} (ho : t ≠ opening) (hc : t ≠ closing) (d : Nat)
    (ts : List Token) : braceDepth? d (t :: ts) = braceDepth? d ts :=
  (if_neg ho).trans (if_neg hc)

/-- Every brace has its partner. -/
def BracesMatch (ts : List Token) : Prop :=
  braceDepth? 0 ts = some 0

instance (ts : List Token) : Decidable (BracesMatch ts) :=
  inferInstanceAs (Decidable (_ = _))

namespace Reader

/-- The number of braces that are open. -/
def depth (r : Reader) : Nat :=
  Frame.depth r.frames + r.part.due.count '\x7d'

theorem depth_behind (fs : List Frame) : (behind fs).depth = Frame.depth fs :=
  Frame.depth_ends fs

/-- Between statements a brace is counted as it is read. -/
theorem braceDepth?_between {r r' : Reader} {t : Token} (hp : r.part = {})
    (h : r.between t = some r') (ts : List Token) :
    braceDepth? r.depth (t :: ts) = braceDepth? r'.depth ts := by
  have now : r.depth = Frame.depth r.frames := by rw [depth, hp]; rfl
  unfold between at h
  split_ifs at h with ho hc
  · cases h
    rw [now, ho, braceDepth?_opening]
    simp [depth, Frame.depth]
  · split at h
    · next fs hfs =>
      cases h
      rw [now, hfs, hc, Frame.depth, List.count_cons_self, braceDepth?_closing, depth_behind,
        Frame.depth]
    · cases h
  · obtain ⟨⟨x, outer⟩, -, rfl⟩ := Option.map_eq_some_iff.mp h
    rw [now, braceDepth?_of_ne ho hc, depth, ← Frame.depth_heads ((elseWord :: x) :: outer)]
    rfl

/-- What a token closes is no longer due. -/
theorem braceDepth?_due {t : Token} {c : Char} (hc : closes? t = some c) (n : Nat) (due : List Char)
    (ts : List Token) : braceDepth? (n + (c :: due).count '\x7d') (t :: ts) =
      braceDepth? (n + due.count '\x7d') ts := by
  by_cases ht : t = closing
  · rw [ht] at hc
    cases hc
    rw [ht, List.count_cons_self, ← Nat.add_assoc, braceDepth?_closing]
  · have ho : t ≠ opening := by
      rintro rfl
      cases hc
    have hne : c ≠ '\x7d' := fun e => ht (closes?_eq_brace.mp (hc.trans (congrArg some e)))
    rw [braceDepth?_of_ne ho ht, List.count_cons_of_ne hne]

/-- What a token opens is due. -/
theorem braceDepth?_closer {t : Token} (hc : closes? t = none) (n : Nat) (due : List Char)
    (ts : List Token) : braceDepth? (n + due.count '\x7d') (t :: ts) =
      braceDepth? (n + ((closer? t).toList ++ due).count '\x7d') ts := by
  by_cases ho : t = opening
  · rw [ho, braceDepth?_opening, Nat.add_assoc, ← List.count_cons_self]
    rfl
  · have ht : t ≠ closing := by
      rintro rfl
      cases hc
    rw [braceDepth?_of_ne ho ht]
    cases hcl : closer? t with
    | none => rfl
    | some d =>
      have hne : d ≠ '\x7d' := fun e => ho (closer?_eq_brace.mp (hcl.trans (congrArg some e)))
      rw [Option.toList_some, List.singleton_append, List.count_cons_of_ne hne]

/-- Inside a part a brace is counted as it is read. -/
theorem braceDepth?_next {r : Reader} {t : Token} {x : Part.Outcome}
    (h : r.part.next t = some x) (ts : List Token) :
    braceDepth? r.depth (t :: ts) = braceDepth? (r.take x).1.depth ts := by
  unfold Part.next at h
  split at h
  · next c d due hc hdue =>
    split_ifs at h with hcd hhead
    all_goals
      rw [not_not] at hcd
      rw [depth, hdue, ← hcd, braceDepth?_due hc]
    · rw [hhead.1]
      cases h
      rfl
    · cases h
      rfl
  · cases h
  · next hc =>
    rw [depth, braceDepth?_closer hc]
    split_ifs at h with hend hdo
    · rw [hend.1, hend.2]
      cases h
      exact congrArg (braceDepth? · ts) (depth_behind r.frames).symm
    · rw [hdo.1, hdo.2]
      cases h
      rfl
    · cases h
      rfl

/-- A brace is counted as it is read. -/
theorem braceDepth?_step {r r' : Reader} {t : Token} {o : List Governed}
    (h : r.step t = some (r', o)) (ts : List Token) :
    braceDepth? r.depth (t :: ts) = braceDepth? r'.depth ts := by
  unfold step at h
  split_ifs at h with hb
  · obtain ⟨r₁, hr, e⟩ := Option.map_eq_some_iff.mp h
    cases e
    exact braceDepth?_between hb.1 hr ts
  · obtain ⟨x, hx, e⟩ := Option.map_eq_some_iff.mp h
    rw [braceDepth?_next hx, e]

/-- A run opens and closes as many blocks as its tokens have braces. -/
theorem braceDepth?_run {r r' : Reader} {ts : List Token} {o : List Governed}
    (h : run r ts = some (r', o)) : braceDepth? r.depth ts = some r'.depth := by
  induction ts generalizing r o with
  | nil =>
    cases h
    rfl
  | cons t ts ih =>
    obtain ⟨r₁, o₁, o₂, hs, hr, -⟩ := run_cons_eq_some.mp h
    rw [braceDepth?_step hs, ih hr]

/-- **What can be read has balanced braces.** -/
theorem bracesMatch_of_read {ts : List Token} {o : List Governed} (h : read ts = some o) :
    BracesMatch ts := by
  obtain ⟨⟨r, o'⟩, hr, h⟩ := Option.bind_eq_some_iff.mp h
  split_ifs at h with hrest
  have depth_zero : r.depth = 0 := by
    rw [depth, hrest.1, hrest.2]
    rfl
  have counted := braceDepth?_run hr
  rwa [depth_zero] at counted

end Reader

/-! ### Code and what is taken out of it -/

/-- A token, and whether it is left. -/
abbrev Mark := Token × Bool

namespace Mark

/-- All of the tokens are left. -/
def left (ts : List Token) : List Mark :=
  ts.map (·, true)

/-- All of the tokens are taken out. -/
def taken (ts : List Token) : List Mark :=
  ts.map (·, false)

/-- The tokens that are left. -/
def rest (ms : List Mark) : List Token :=
  (ms.filter Prod.snd).map Prod.fst

@[simp] theorem map_fst_left (ts : List Token) : (left ts).map Prod.fst = ts := by
  simp [left, Function.comp_def]

@[simp] theorem map_fst_taken (ts : List Token) : (taken ts).map Prod.fst = ts := by
  simp [taken, Function.comp_def]

@[simp] theorem filter_left (ts : List Token) : (left ts).filter Prod.snd = left ts := by
  simp [left]

@[simp] theorem filter_taken (ts : List Token) : (taken ts).filter Prod.snd = [] := by
  simp [taken]

@[simp] theorem rest_left (ts : List Token) : rest (left ts) = ts := by
  simp [rest]

@[simp] theorem rest_taken (ts : List Token) : rest (taken ts) = [] := by
  simp [rest]

@[simp] theorem rest_append (a b : List Mark) : rest (a ++ b) = rest a ++ rest b := by
  simp [rest]

theorem rest_flatMap {α : Type} (f : α → List Mark) (l : List α) :
    rest (l.flatMap f) = l.flatMap fun x => rest (f x) := by
  induction l with
  | nil => rfl
  | cons x l ih => rw [List.flatMap_cons, rest_append, ih, List.flatMap_cons]

end Mark

/-- The code of a body and what is taken out of it. -/
inductive Tree where
  | empty
  | seq (a b : Tree)
  | simple (ts : List Token)
  /-- A block; a `bare` one loses its braces. -/
  | block (bare : Bool) (t : Tree)
  | headed (h : Head) (t : Tree)
  /-- A conditional with an `else`. -/
  | either (h : Head) (t e : Tree)
  /-- Code that is taken out. -/
  | cut (t : Tree)

namespace Tree

/-- All tokens, each with whether it is left. -/
def marks : Tree → List Mark
  | empty => []
  | seq a b => a.marks ++ b.marks
  | simple ts => Mark.left ts
  | block bare t => (opening, !bare) :: (t.marks ++ [(closing, !bare)])
  | headed h t => Mark.left h ++ t.marks
  | either h t e => Mark.left h ++ (t.marks ++ (elseWord, true) :: e.marks)
  | cut t => Mark.taken (t.marks.map Prod.fst)

/-- All tokens. -/
def tokens (t : Tree) : List Token :=
  t.marks.map Prod.fst

@[simp] theorem tokens_seq (a b : Tree) : (seq a b).tokens = a.tokens ++ b.tokens :=
  List.map_append

@[simp] theorem tokens_simple (ts : List Token) : (simple ts).tokens = ts :=
  Mark.map_fst_left ts

@[simp] theorem tokens_block (bare : Bool) (t : Tree) :
    (block bare t).tokens = opening :: (t.tokens ++ [closing]) := by
  simp [tokens, marks]

@[simp] theorem tokens_headed (h : Head) (t : Tree) : (headed h t).tokens = h ++ t.tokens := by
  simp [tokens, marks]

@[simp] theorem tokens_either (h : Head) (t e : Tree) :
    (either h t e).tokens = h ++ (t.tokens ++ elseWord :: e.tokens) := by
  simp [tokens, marks]

@[simp] theorem tokens_cut (t : Tree) : (cut t).tokens = t.tokens :=
  Mark.map_fst_taken _

/-- One piece of code behind another. -/
def join : Tree → Tree → Tree
  | empty, b => b
  | a, empty => a
  | a, b => seq a b

/-- What is left. -/
def kept : Tree → Tree
  | empty => empty
  | seq a b => join a.kept b.kept
  | simple ts => simple ts
  | block bare t => if bare then t.kept else block false t.kept
  | headed h t => headed h t.kept
  | either h t e => either h t.kept e.kept
  | cut _ => empty

/-- The heads that end with a statement, the innermost first; none if the tree is not one
statement. -/
def ended? : Tree → Option (List Head)
  | empty | seq .. => none
  | simple _ | block .. => some []
  | headed h t => t.ended?.map (· ++ [h])
  | either h _ e => e.ended?.map (· ++ [elseWord :: h])
  | cut t => t.ended?

/-- Statements and heads are what they are read as, a head stands before one statement, and an
`else` goes on with its own `if`. -/
def Sound : Tree → Prop
  | empty => True
  | seq a b => a.Sound ∧ b.Sound
  | simple ts => Part.phrase? ts = some (.statement ts)
  | block _ t => t.Sound
  | headed h t => Part.phrase? h = some (.head h) ∧ t.ended?.isSome ∧ t.Sound
  | either h t e => (Part.phrase? h = some (.head h) ∧ Reader.isIf h = true) ∧
      t.ended?.any (·.all (!Reader.isIf ·)) ∧ e.ended?.isSome ∧ t.Sound ∧ e.Sound
  | cut t => t.Sound

instance decidableSound : (t : Tree) → Decidable t.Sound
  | empty => inferInstanceAs (Decidable True)
  | seq a b =>
    have := decidableSound a
    have := decidableSound b
    inferInstanceAs (Decidable (a.Sound ∧ b.Sound))
  | simple _ => inferInstanceAs (Decidable (_ = _))
  | block _ t | cut t => decidableSound t
  | headed _ t =>
    have := decidableSound t
    inferInstanceAs (Decidable (_ ∧ _ ∧ t.Sound))
  | either _ t e =>
    have := decidableSound t
    have := decidableSound e
    inferInstanceAs (Decidable ((_ ∧ _) ∧ _ ∧ _ ∧ t.Sound ∧ e.Sound))

/-- The statements of a tree that stands under heads. -/
def statements (hs : List Head) : Tree → List Governed
  | empty => []
  | seq a b => a.statements hs ++ b.statements hs
  | simple ts => [⟨ts, hs⟩]
  | block _ t => t.statements hs
  | headed h t => t.statements (h :: hs)
  | either h t e => t.statements (h :: hs) ++ e.statements ((elseWord :: h) :: hs)
  | cut t => t.statements hs

/-! ### What is left -/

/-- Two trees that are joined have the tokens of the one and then those of the other. -/
theorem marks_join (a b : Tree) : (join a b).marks = a.marks ++ b.marks := by
  unfold join
  split
  · rfl
  · simp [marks]
  · rfl

/-- Two trees that are joined have the statements of both, under the same heads. -/
theorem statements_join (hs : List Head) (a b : Tree) :
    (join a b).statements hs = a.statements hs ++ b.statements hs := by
  unfold join
  split
  · rfl
  · simp [statements]
  · rfl

/-- Nothing more is taken out of what is left. -/
theorem marks_kept (t : Tree) : t.kept.marks = t.marks.filter Prod.snd := by
  induction t with
  | empty => rfl
  | seq a b iha ihb => rw [kept, marks_join, iha, ihb, marks, List.filter_append]
  | simple ts => simp [kept, marks]
  | block bare t ih => cases bare <;> simp [kept, marks, ih]
  | headed h t ih => simp [kept, marks, ih]
  | either h t e iht ihe => simp [kept, marks, iht, ihe]
  | cut t => simp [kept, marks]

/-- The statements that are left are statements of the tree, under the same heads. -/
theorem statements_kept (t : Tree) (hs : List Head) :
    (t.kept.statements hs).Sublist (t.statements hs) := by
  induction t generalizing hs with
  | empty => exact .refl _
  | seq a b iha ihb =>
    rw [kept, statements_join]
    exact (iha hs).append (ihb hs)
  | simple ts => exact .refl _
  | block bare t ih => cases bare <;> exact ih hs
  | headed h t ih => exact ih _
  | either h t e iht ihe => exact (iht _).append (ihe _)
  | cut t => exact List.nil_sublist _

/-! ### Reading a tree -/

section Reading
open Reader

/-- The tokens of a sound tree are read in the frames `fs` as its statements; behind one statement
the heads that it ends are closed. -/
def ReadIn (t : Tree) (fs : List Frame) (c? : Option (List Head)) : Prop :=
  (∀ hs, t.ended? = some hs → run ⟨fs, c?, {}⟩ t.tokens =
    some (⟨(Frame.ends fs).2, some (hs ++ (Frame.ends fs).1), {}⟩, t.statements (heads fs))) ∧
  ((Frame.ends fs).1 = [] → ∃ c?', run ⟨fs, c?, {}⟩ t.tokens =
    some (⟨fs, c?', {}⟩, t.statements (heads fs)))

/-- A tree is read where the run over its tokens takes up its statements. -/
theorem readIn_of_run {t : Tree} {fs : List Frame} {c? : Option (List Head)} {hs : List Head}
    (he : t.ended? = some hs) (h : run ⟨fs, c?, {}⟩ t.tokens =
      some (⟨(Frame.ends fs).2, some (hs ++ (Frame.ends fs).1), {}⟩, t.statements (heads fs))) :
    ReadIn t fs c? := by
  refine ⟨fun hs' he' => ?_, fun hfs => ?_⟩
  · cases he.symm.trans he'
    exact h
  · have outer := Frame.append_ends fs
    rw [hfs, List.map_nil, List.nil_append] at outer
    rw [outer] at h
    exact ⟨_, h⟩

/-- A block is read in its frame, and is one statement behind its brace. -/
theorem readIn_block (bare : Bool) {t : Tree} {fs : List Frame}
    (ht : ReadIn t (.block :: fs) none) (c? : Option (List Head)) :
    ReadIn (block bare t) fs c? := by
  obtain ⟨c₁, inner⟩ := ht.2 rfl
  refine readIn_of_run rfl ?_
  rw [tokens_block]
  refine run_cons_eq_some.mpr ⟨⟨.block :: fs, none, {}⟩, [], _, rfl, ?_, rfl⟩
  exact run_append_eq_some.mpr ⟨_, _, [], inner, rfl, (List.append_nil _).symm⟩

/-- A head ends with its statement. -/
theorem readIn_headed {h : Head} {t : Tree} {fs : List Frame}
    (hh : Part.phrase? h = some (.head h)) (hone : t.ended?.isSome)
    (ht : ReadIn t (.head h :: fs) none) (c? : Option (List Head)) : ReadIn (headed h t) fs c? := by
  obtain ⟨hs, he⟩ := Option.isSome_iff_exists.mp hone
  have ends : (headed h t).ended? = some (hs ++ [h]) := by rw [ended?, he, Option.map_some]
  refine readIn_of_run ends ?_
  rw [tokens_headed, List.append_assoc]
  exact run_append_eq_some.mpr ⟨_, _, _, run_phrase hh _ _, ht.1 hs he, rfl⟩

/-- An `else` goes on with the head that its `if` stands behind, if no `if` in between is open. -/
theorem readIn_either {h : Head} {t e : Tree} {fs : List Frame}
    (hh : Part.phrase? h = some (.head h)) (hif : isIf h = true)
    (hopen : t.ended?.any (·.all (!isIf ·))) (hone : e.ended?.isSome)
    (ht : ReadIn t (.head h :: fs) none) (he : ReadIn e (.head (elseWord :: h) :: fs) none)
    (c? : Option (List Head)) : ReadIn (either h t e) fs c? := by
  obtain ⟨ts, het, hts⟩ := (Option.any_eq_true ..).mp hopen
  obtain ⟨es, hee⟩ := Option.isSome_iff_exists.mp hone
  have found : continued? (ts ++ (Frame.ends (.head h :: fs)).1) = some (h, (Frame.ends fs).1) := by
    rw [continued?_append (by simpa using hts), Frame.ends, continued?, if_pos hif]
  have word := step_else (Frame.ends (.head h :: fs)).2 found
  rw [Frame.ends, Frame.append_ends] at word
  have ends : (either h t e).ended? = some (es ++ [elseWord :: h]) := by
    rw [ended?, hee, Option.map_some]
  refine readIn_of_run ends ?_
  rw [tokens_either, List.append_assoc]
  refine run_append_eq_some.mpr ⟨_, _, _, run_phrase hh _ _, ?_, rfl⟩
  refine run_append_eq_some.mpr ⟨_, _, _, ht.1 ts het, ?_, rfl⟩
  exact run_cons_eq_some.mpr ⟨_, _, _, word, he.1 es hee, rfl⟩

/-- **A sound tree is read as written.** -/
theorem run_tokens {t : Tree} (h : t.Sound) (fs : List Frame) (c? : Option (List Head)) :
    ReadIn t fs c? := by
  induction t generalizing fs c? with
  | empty => exact ⟨nofun, fun _ => ⟨c?, rfl⟩⟩
  | seq a b iha ihb =>
    refine ⟨nofun, fun hfs => ?_⟩
    obtain ⟨c₁, ha⟩ := (iha h.1 fs c?).2 hfs
    obtain ⟨c₂, hb⟩ := (ihb h.2 fs c₁).2 hfs
    rw [tokens_seq]
    exact ⟨c₂, run_append_eq_some.mpr ⟨_, _, _, ha, hb, rfl⟩⟩
  | simple ts =>
    refine readIn_of_run rfl ?_
    rw [tokens_simple, run_phrase h]
    rfl
  | block bare t ih => exact readIn_block bare (ih h _ _) c?
  | headed h' t ih =>
    obtain ⟨hh, hone, ht⟩ := h
    exact readIn_headed hh hone (ih ht _ _) c?
  | either h' t e iht ihe =>
    obtain ⟨⟨hh, hif⟩, hopen, hone, ht, he⟩ := h
    exact readIn_either hh hif hopen hone (iht ht _ _) (ihe he _ _) c?
  | cut t ih =>
    unfold ReadIn
    rw [tokens_cut]
    exact ih h fs c?

/-- The statements of a sound tree with no heads around it. -/
theorem read_tokens {t : Tree} (h : t.Sound) : read t.tokens = some (t.statements []) := by
  obtain ⟨c?, hr⟩ := (run_tokens h [] none).2 rfl
  exact Option.bind_eq_some_iff.mpr ⟨_, hr, if_pos ⟨rfl, rfl⟩⟩

end Reading

end Tree

end VectorWrap
