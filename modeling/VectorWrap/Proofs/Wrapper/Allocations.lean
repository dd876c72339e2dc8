import VectorWrap.Proofs.Code.Structure
import VectorWrap.Proofs.Wrapper.Assignments
import VectorWrap.Proofs.Wrapper.Release
import VectorWrap.Proofs.Wrapper.Renames

/-!
# Lines that allocate

What a line allocates is said twice.  By its tokens it assigns what a call of a function gives, with
a cast or without one, to a variable (`Assignment.Calls`).  The wrapper reads it otherwise, as a
text with a variable before an equals sign and a value in which the name of the allocating function
and a parenthesis occur (`Closure.IsNoted`).

Renaming carries the first to the renamed names (`Calls.text`), and a line that assigns the result
of a call is read as an assignment to the same variable (`ofLine_of_calls`).  The two agree where
the parenthesis stands right behind the name (`isNoted_of_calls`).

That a line can be read again after the renaming rests on the tokens: a text with the same tokens up
to names has its blanks and signs in the same places, so the variable is still what stands before
the sign (`ofLine_of_left`).
-/

namespace VectorWrap

namespace Assignment

/-! ### What a reading keeps -/

/-- What holds a parenthesis and neither a blank, a semicolon nor an equals sign, and occurs in a
line, occurs in the value that is read from it. -/
theorem infix_value {line w : Text} {a : Assignment} (h : ofLine line = .ok (some a))
    (hb : ∀ c ∈ w, Text.isBlank c = false ∧ (c == ';') = false) (he : '=' ∉ w) (hp : '(' ∈ w)
    (hw : w <:+: line) : w <:+: a.value := by
  obtain ⟨l, r, -, hs, value, -, paren, -⟩ := exists_parts h
  have blank : ∀ c ∈ w, Text.isBlank c = false := fun c hc => (hb c hc).1
  have inner : w <:+: l ++ '=' :: r := atEquals?_eq_some hs ▸ infix_body hb hw
  rcases Text.infix_of_not_mem he inner with hl | hr
  · exact absurd ((Text.infix_trim blank hl).subset hp) paren
  · exact value ▸ Text.infix_trim blank hr

/-! ### Calls by their tokens -/

/-- The token may stand in a type. -/
def inType : Token → Bool
  | .identifier _ => true
  | .mark c => c == '*'
  | _ => false

/-- Nothing, or the tokens of a type. -/
def IsType (ts : List Token) : Prop :=
  (∀ t ∈ ts, inType t = true) ∧ ts.head? ≠ some (.mark '*')

/-- Nothing, or the tokens of a cast. -/
def IsCast (ts : List Token) : Prop :=
  ts = [] ∨ ∃ inner, ts = .mark '(' :: inner ++ [.mark ')'] ∧ ∀ t ∈ inner, inType t = true

/-- The line assigns what a call of `f` gives to the variable `v`. -/
def Calls (f line v : Text) : Prop :=
  ∃ type cast rest, Text.code line = type ++ .identifier v :: .mark '=' ::
      (cast ++ .identifier f :: .mark '(' :: rest) ∧ IsType type ∧ IsCast cast

end Assignment

namespace Renaming

theorem isSpace_token (m : Renaming) (t : Token) : (m.token t).isSpace = t.isSpace := by
  cases t <;> rfl

theorem inType_token (m : Renaming) (t : Token) :
    Assignment.inType (m.token t) = Assignment.inType t := by
  cases t <;> rfl

theorem token_eq_mark {m : Renaming} {t : Token} {c : Char} :
    m.token t = .mark c ↔ t = .mark c := by
  cases t <;> simp [token]

/-- The tokens of a renamed text but for the blanks. -/
theorem code_text {m : Renaming} (hm : ∀ p ∈ m, Text.isName p.2 = true) (s : Text) :
    Text.code (m.text s) = (Text.code s).map m.token := by
  rw [Text.code, Text.code, tokens_text hm, List.filter_map]
  congr 1
  exact List.filter_congr fun t _ => by simp [isSpace_token]

end Renaming

namespace Assignment

/-- Renaming a line renames the variable and the function. -/
theorem Calls.text {m : Renaming} (hm : ∀ p ∈ m, Text.isName p.2 = true) {f line v : Text}
    (h : Calls f line v) : Calls (m.apply f) (m.text line) (m.apply v) := by
  obtain ⟨type, cast, rest, code, htype, hcast⟩ := h
  have kept : ∀ {ts : List Token}, (∀ t ∈ ts, inType t = true) →
      ∀ t ∈ ts.map m.token, inType t = true := by
    intro ts h t ht
    obtain ⟨u, hu, rfl⟩ := List.mem_map.mp ht
    rw [Renaming.inType_token]
    exact h u hu
  refine ⟨type.map m.token, cast.map m.token, rest.map m.token, ?_, ⟨kept htype.1, ?_⟩, ?_⟩
  · rw [Renaming.code_text hm, code]
    simp [Renaming.token]
  · rw [List.head?_map]
    intro h
    obtain ⟨t, ht, hmark⟩ := Option.map_eq_some_iff.mp h
    exact htype.2 (Renaming.token_eq_mark.mp hmark ▸ ht)
  · rcases hcast with rfl | ⟨inner, rfl, hinner⟩
    · exact .inl rfl
    · exact .inr ⟨inner.map m.token, by simp [Renaming.token], kept hinner⟩

/-! ### Reading calls -/

/-- The character stands in a type, or between type, variable and equals sign. -/
def inLeft (c : Char) : Bool :=
  Text.inName c || Text.isBlank c || c == '*'

/-- An identifier begins where the text before it does not end with a character of a name. -/
theorem inName_of_tokens {s v : Text} {ts us : List Token}
    (h : Text.tokens s = ts ++ .identifier v :: us) :
    ∀ c, (Token.concat ts).getLast? = some c → Text.inName c = false := by
  induction ts generalizing s with
  | nil => exact fun c hc => by cases hc
  | cons t ts ih =>
    cases s with
    | nil => cases (Text.tokens.eq_def []).symm.trans h
    | cons d r =>
      rw [Text.tokens_cons, List.cons_append, List.cons.injEq] at h
      obtain ⟨rfl, h⟩ := h
      have last := ih h
      intro c hc
      rw [Token.concat, List.flatMap_cons, ← Token.concat] at hc
      by_cases he : Token.concat ts = []
      · -- the identifier follows at once, so the text goes on with a character of a name
        rw [he, List.append_nil] at hc
        rcases Token.first_ends d r with hrest | ⟨-, hlast⟩
        · have whole := Text.concat_tokens (Token.first d r).2
          rw [h, Token.concat, List.flatMap_append, ← Token.concat, he, List.nil_append,
            List.flatMap_cons, Token.text] at whole
          have hv : Text.isName v = true :=
            (Text.isName_of_mem_tokens (s := (Token.first d r).2) (by rw [h]; simp)).1
          obtain ⟨e, v', rfl⟩ := List.exists_cons_of_ne_nil (Text.ne_nil_of_isName hv)
          have := hrest e (by rw [← whole]; rfl)
          rw [Text.all_inName_of_isName hv e List.mem_cons_self] at this
          cases this
        · exact hlast c hc
      · rw [List.getLast?_append_of_ne_nil _ he] at hc
        exact last c hc

/-- The characters of tokens that may stand in a type. -/
theorem inLeft_of_inType {ts : List Token} {s : Text} (hs : ∀ t ∈ ts, t ∈ Text.tokens s)
    (h : ∀ t ∈ ts, t.isSpace = true ∨ inType t = true) :
    ∀ c ∈ Token.concat ts, inLeft c = true := by
  intro c hc
  obtain ⟨t, ht, hc⟩ := List.mem_flatMap.mp hc
  cases t with
  | identifier v =>
    have hv := (Text.isName_of_mem_tokens (hs _ ht)).1
    simp [inLeft, Text.all_inName_of_isName hv c hc]
  | mark d =>
    rw [Token.text, List.mem_singleton] at hc
    subst hc
    rcases h _ ht with h | h
    · simp [inLeft, show Text.isBlank c = true from h]
    · simp [inLeft, show c = '*' by simpa [inType] using h]
  | _ => rcases h _ ht with h | h <;> cases h

/-- A text that ends with a variable, and with a character of no name before that, is cut there if
it is cut at all. -/
theorem var_of_target {x v : Text} (hv : ∀ d ∈ v, Text.inName d = true)
    (hx : ∀ c, x.getLast? = some c → Text.inName c = false) {p : Text × Text}
    (h : target (x ++ v) = .ok p) : p.2 = v := by
  obtain ⟨hvar, hbefore⟩ := Closure.takeWhile_reverse hv hx
  simp only [target, hvar, hbefore] at h
  split at h
  · cases h
    rfl
  · split_ifs at h
    cases h
    rfl

/-- A text is divided at its first equals sign if no other one follows and what stands before it may
stand in a type. -/
theorem atEquals?_of_inLeft {l y : Text} (hl : ∀ c ∈ l, inLeft c = true) (hne : l ≠ [])
    (hy : y.head? ≠ some '=') : atEquals? ' ' (l ++ '=' :: y) = some (l, y) := by
  rw [atEquals?_eq_some_iff]
  refine ⟨rfl, ⟨by simpa using hy, fun c hc hm => ?_⟩, fun u w e => ?_⟩
  · rw [← List.singleton_append, List.getLast?_append_of_ne_nil _ hne] at hc
    have := hl c (List.mem_of_getLast? hc)
    revert hm this
    simp only [List.mem_cons, List.not_mem_nil, or_false]
    rintro (rfl | rfl | rfl | rfl) <;> decide
  · exact absurd (by rw [e]; simp) (Text.not_mem_of_class hl (c := '=') rfl)

/-- The body of a line begins behind its blanks and goes on to its last parenthesis at least. -/
theorem exists_body_append {a l y : Text} (ha : ∀ c ∈ a, Text.isBlank c = true) (hl : Text.Flush l)
    (hne : l ≠ []) (hp : '(' ∈ y) : ∃ y₁ z : Text, y.head? = (y₁ ++ '(' :: z).head? ∧
      body (a ++ l ++ y) = l ++ (y₁ ++ '(' :: z) := by
  obtain ⟨y₁, y₂, rfl⟩ := List.append_of_mem hp
  have front : body (a ++ l ++ (y₁ ++ '(' :: y₂)) = body (l ++ (y₁ ++ '(' :: y₂)) := by
    rw [body, body, List.append_assoc a, Text.trim_blank_append ha]
  obtain ⟨z, hz⟩ := body_append (c := '(') (x := l ++ y₁)
    (by simpa using hl.append hne (y₁ ++ ['('])) (by decide) (by decide) y₂
  refine ⟨y₁, z, ?_, by rw [front]; simpa using hz⟩
  cases y₁ <;> rfl

/-- A text whose blanks in front are cut off. -/
theorem exists_flush (x : Text) : ∃ a t : Text, x = a ++ t ∧ (∀ c ∈ a, Text.isBlank c = true) ∧
    Text.Flush t := by
  refine ⟨x.takeWhile Text.isBlank, x.dropWhile Text.isBlank,
    List.takeWhile_append_dropWhile.symm, fun c hc => List.mem_takeWhile_imp hc, fun c hc => ?_⟩
  have := List.head?_dropWhile_not Text.isBlank x
  rw [hc] at this
  simpa using this

/-- A line whose characters up to the equals sign are those of a type and a variable is read as an
assignment to that variable, if it can be read. -/
theorem ofLine_of_left {x v b y : Text} (hx : ∀ c ∈ x, inLeft c = true)
    (hlast : ∀ c, x.getLast? = some c → Text.inName c = false) (hv : Text.isName v = true)
    (hb : ∀ c ∈ b, Text.isBlank c = true) (hp : '(' ∈ y) (hy : y.head? ≠ some '=')
    {a? : Option Assignment} (h : ofLine (x ++ v ++ b ++ '=' :: y) = .ok a?) :
    ∃ a, a? = some a ∧ a.var = v := by
  have names := Text.all_inName_of_isName hv
  obtain ⟨a, t, rfl, ha, ht⟩ := exists_flush x
  have flush : Text.Flush (t ++ v) := by
    cases t with
    | cons c t => exact ht.append (by simp) v
    | nil => exact fun c hc => Text.isBlank_of_inName (names c (List.mem_of_mem_head? hc))
  have nonempty : t ++ v ≠ [] := by simp [Text.ne_nil_of_isName hv]
  have left : ∀ c ∈ t ++ v ++ b, inLeft c = true := by
    simp only [List.mem_append]
    rintro c ((hc | hc) | hc)
    · exact hx c (List.mem_append_right a hc)
    · simp [inLeft, names c hc]
    · simp [inLeft, hb c hc]
  have nonempty' : t ++ v ++ b ≠ [] := List.append_ne_nil_of_left_ne_nil nonempty b
  obtain ⟨y₁, z, hhead, hz⟩ := exists_body_append (y := y) ha
    (flush.append nonempty (b ++ ['='])) (by simp) hp
  -- the equals sign is found behind `b`, since none of the characters before it is one
  have split : atEquals? ' ' (body (a ++ t ++ v ++ b ++ '=' :: y)) =
      some (t ++ v ++ b, y₁ ++ '(' :: z) := by
    have whole : body (a ++ t ++ v ++ b ++ '=' :: y) = t ++ v ++ b ++ '=' :: (y₁ ++ '(' :: z) := by
      simpa using hz
    rw [whole]
    exact atEquals?_of_inLeft left nonempty' (hhead ▸ hy)
  have trimmed : Text.trim (t ++ v ++ b) = t ++ v := by
    refine Text.trim_append (a := []) (t := t ++ v) (by simp) hb ⟨flush, fun c hc => ?_⟩
    rw [List.getLast?_append_of_ne_nil _ (Text.ne_nil_of_isName hv)] at hc
    exact Text.isBlank_of_inName (names c (List.mem_of_getLast? hc))
  have value : ¬ (Text.trim (y₁ ++ '(' :: z)).isEmpty = true := by
    have := Closure.mem_trim (c := '(') (s := y₁ ++ '(' :: z) (by decide) (by simp)
    simp [List.ne_nil_of_mem this]
  have paren : '(' ∉ t ++ v := fun hm =>
    Text.not_mem_of_class left (c := '(') rfl (List.mem_append_left b hm)
  rw [ofLine, split] at h
  dsimp only at h
  rw [trimmed, if_neg (not_or.mpr ⟨value, paren⟩)] at h
  obtain ⟨p, hp, h⟩ := bind_eq_ok.mp h
  have hpv : p.2 = v := var_of_target names (fun c hc => ?_) hp
  · rw [hpv, if_pos hv] at h
    cases h
    exact ⟨_, rfl, rfl⟩
  · refine hlast c ?_
    cases t with
    | nil => cases hc
    | cons d t => rwa [List.getLast?_append_of_ne_nil _ (by simp)]

theorem isBlank_of_isSpace {t : Token} (h : t.isSpace = true) :
    ∀ c ∈ t.text, Text.isBlank c = true := by
  cases t with
  | mark d => exact List.forall_mem_singleton.mpr h
  | _ => cases h

/-- A call begins with a blank, a cast or the name of its function, and not with an equals sign. -/
theorem head?_of_call {ts cast rest : List Token} {f : Text}
    (h : ts.filter (!·.isSpace) = cast ++ .identifier f :: rest) (hcast : IsCast cast)
    (hf : Text.isName f = true) : (Token.concat ts).head? ≠ some '=' := by
  cases ts with
  | nil => simp [Token.concat]
  | cons t ts =>
    have first : t.isSpace = true ∨ t = .mark '(' ∨ t = .identifier f := by
      cases hsp : t.isSpace with
      | true => exact .inl rfl
      | false =>
        rw [List.filter_cons_of_pos (by simp [hsp])] at h
        rcases hcast with rfl | ⟨inner, rfl, -⟩
        · exact .inr (.inr (List.cons_eq_cons.mp h).1)
        · exact .inr (.inl (List.cons_eq_cons.mp h).1)
    rcases first with hsp | rfl | rfl
    · cases t with
      | mark c =>
        rintro hc
        cases hc
        exact absurd hsp (by decide)
      | _ => cases hsp
    · simp [Token.concat, Token.text]
    · obtain ⟨c, f, rfl⟩ := List.exists_cons_of_ne_nil (Text.ne_nil_of_isName hf)
      rintro hc
      cases hc
      exact absurd (Text.all_inName_of_isName hf '=' List.mem_cons_self) (by decide)

/-- **A line that assigns the result of a call is read as an assignment to its variable**, if it can
be read. -/
theorem ofLine_of_calls {f line v : Text} (h : Calls f line v) {a? : Option Assignment}
    (hr : ofLine line = .ok a?) : ∃ a, a? = some a ∧ a.var = v := by
  obtain ⟨type, cast, rest, code, htype, hcast⟩ := h
  rw [Text.code] at code
  obtain ⟨ts, us, htokens, hts, hus⟩ := List.filter_eq_append_iff.mp code
  obtain ⟨b₁, us', rfl, hb₁, -, hus'⟩ := List.filter_eq_cons_iff.mp hus
  obtain ⟨b₂, us'', rfl, hb₂, -, hus''⟩ := List.filter_eq_cons_iff.mp hus'
  have space : ∀ t : Token, ¬ (!t.isSpace) = true → t.isSpace = true := by simp
  -- up to the equals sign the tokens are those of the type, the variable, and blanks
  have before : ∀ t ∈ ts ++ b₁, t.isSpace = true ∨ inType t = true := by
    intro t ht
    rcases List.mem_append.mp ht with ht | ht
    · cases hsp : t.isSpace with
      | true => exact .inl rfl
      | false => exact .inr (htype.1 t (hts ▸ List.mem_filter.mpr ⟨ht, by simp [hsp]⟩))
    · exact .inl (space t (hb₁ t ht))
  have text :
      line = Token.concat (ts ++ b₁) ++ v ++ Token.concat b₂ ++ '=' :: Token.concat us'' := by
    rw [← Text.concat_tokens line, htokens]
    simp [Token.concat, Token.text]
  have hv : Text.isName v = true := (Text.isName_of_mem_tokens (s := line) (by
    rw [htokens]
    simp)).1
  have hf : Text.isName f = true := (Text.isName_of_mem_tokens (s := line) (by
    rw [htokens]
    have hm : Token.identifier f ∈ us'' := (List.mem_filter.mp (by rw [hus'']; simp)).1
    simp [hm])).1
  have paren : '(' ∈ Token.concat us'' := by
    have hm : Token.mark '(' ∈ us'' := (List.mem_filter.mp (by rw [hus'']; simp)).1
    exact List.mem_flatMap.mpr ⟨_, hm, by simp [Token.text]⟩
  rw [text] at hr
  refine ofLine_of_left ?_ (fun c hc => ?_) hv ?_ paren
    (head?_of_call hus'' hcast hf) hr
  · refine inLeft_of_inType (s := line) (fun t ht => ?_) before
    rw [htokens]
    rcases List.mem_append.mp ht with ht | ht <;> simp [ht]
  · have cut : Text.tokens line = (ts ++ b₁) ++ .identifier v :: (b₂ ++ .mark '=' :: us'') := by
      rw [htokens]
      simp
    exact inName_of_tokens cut c hc
  · intro c hc
    obtain ⟨t, ht, hc⟩ := List.mem_flatMap.mp hc
    exact isBlank_of_isSpace (space t (hb₂ t ht)) c hc

end Assignment

namespace Closure

/-! ### What is noted of a line -/

/-- The line is read as an assignment to the result of a value in which the memory is allocated. -/
def IsNoted (line : Text) : Prop :=
  ∃ a, Assignment.ofLine line = .ok (some a) ∧ a.var = result ∧ "malloc(".toList <:+: a.value

/-- The wrapper notes the line just if its text says so. -/
theorem allocates_eq_true {line : Text} : allocates line result = .ok true ↔ IsNoted line := by
  rw [allocates, IsNoted]
  cases Assignment.ofLine line with
  | error f => simp [bind, Except.bind]
  | ok a? =>
    cases a? with
    | none => simp [bind, Except.bind, pure, Except.pure]
    | some a => simp [bind, Except.bind, pure, Except.pure, ← Text.contains_iff]

/-- What is noted of a line that is read as an assignment. -/
theorem isNoted_iff {line : Text} {a : Assignment} (ha : Assignment.ofLine line = .ok (some a))
    (hw : "malloc(".toList <:+: line) : IsNoted line ↔ a.var = result := by
  constructor
  · rintro ⟨b, hb, hv, -⟩
    cases ha.symm.trans hb
    exact hv
  · intro hv
    exact ⟨a, ha, hv,
      Assignment.infix_value ha Assignment.plain_malloc (by decide) (by decide) hw⟩

/-- **A line that assigns what `malloc` gives to the result is noted**, where the parenthesis stands
right behind the name and the line can be read. -/
theorem isNoted_of_calls {line : Text} (h : Assignment.Calls "malloc" line result)
    (tight : [.identifier "malloc".toList, .mark '('] <:+: Text.tokens line)
    {a? : Option Assignment} (hr : Assignment.ofLine line = .ok a?) : IsNoted line := by
  obtain ⟨a, rfl, hv⟩ := Assignment.ofLine_of_calls h hr
  refine (isNoted_iff hr ?_).mpr hv
  obtain ⟨ts, us, htokens⟩ := tight
  refine ⟨Token.concat ts, Token.concat us, ?_⟩
  rw [← Text.concat_tokens line, ← htokens]
  simp [Token.concat, Token.text]

end Closure

end VectorWrap
