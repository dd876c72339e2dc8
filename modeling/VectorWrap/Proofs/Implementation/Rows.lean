import VectorWrap.Proofs.Implementation.Lines
import VectorWrap.Proofs.Implementation.Places

/-!
# Bindings in a body

A binding that stands at a place of the code is reported as a slot (`exists_slot_of_place`),
whatever stands before it.  The sweep for assignments comes to its variable, for no other assignment
goes over it: up to its equals sign a binding holds no parenthesis, and every assignment ends with
one.  A declaration that overlaps it ends with the same assignment.

`IsRow` says of a line that it is made of binding statements alone.

Where a sweep has gone over the beginning of a binding, what it found there ends where the binding
ends (`value_of_overlaps`), so its number and its variable are those of the binding; only the type
may be another.
-/

namespace VectorWrap.ArgSlot
open Scan Line

/-! ### What a binding is made of -/

/-- An assignment is its variable, the equals sign, and a cast or none before the fetch. -/
theorem value_of_assignment {s r : Text} {b : Binding} (h : assignment s = some (b, r)) :
    ∃ lay gap t u : Text, s = lay ++ (b.var ++ (gap ++ '=' :: t)) ∧
      (∀ c ∈ lay, Text.isLayout c = true) ∧ (∀ c ∈ gap, Text.isLayout c = true) ∧
      orNone castForm t = some (b.type?, u) ∧
      (layout >>= fun _ => fetch) u = some ((b.kind, b.digits), r) := by
  obtain ⟨s₁, s₂, s₃, named, sign, cast, read⟩ := exists_of_assignment h
  refine ⟨s.takeWhile Text.isLayout, s₁.takeWhile Text.isLayout, s₂, s₃, ?_,
    fun c hc => List.mem_takeWhile_imp hc, fun c hc => List.mem_takeWhile_imp hc, cast,
    bind_eq_some.mpr ⟨(), _, layout_eq_some.mpr rfl, read⟩⟩
  conv_lhs => rw [← List.takeWhile_append_dropWhile (p := Text.isLayout) (l := s),
    (parts_of_ident named).1,
    ← List.takeWhile_append_dropWhile (p := Text.isLayout) (l := s₁), sign]

/-- An assignment begins with its variable and the equals sign. -/
theorem parts_of_assignment {s r : Text} {b : Binding} (h : assignment s = some (b, r)) :
    ∃ lay gap t : Text, s = lay ++ (b.var ++ (gap ++ '=' :: t)) ∧
      (∀ c ∈ lay, Text.isLayout c = true) ∧ ∀ c ∈ gap, Text.isLayout c = true := by
  obtain ⟨lay, gap, t, _, hs, hl, hg, -⟩ := value_of_assignment h
  exact ⟨lay, gap, t, hs, hl, hg⟩

/-- Begins with the first character of a name. -/
def StartsName (x : Text) : Prop :=
  ∃ c r, x = c :: r ∧ Text.startsName c = true

theorem StartsName.isLayout {x : Text} (h : StartsName x) :
    ∀ c, x.head? = some c → Text.isLayout c = false := by
  obtain ⟨d, r, rfl, hd⟩ := h
  rintro c ⟨⟩
  exact Text.isLayout_of_startsName hd

/-- An assignment behind its layout. -/
theorem exists_start_of_assignment {s r : Text} {b : Binding} (h : assignment s = some (b, r)) :
    ∃ lay x, s = lay ++ x ∧ (∀ c ∈ lay, Text.isLayout c = true) ∧ StartsName x ∧
      assignment x = some (b, r) := by
  obtain ⟨lay, gap, t, hs, hl, -⟩ := parts_of_assignment h
  have hv := isName_of_assignment h
  obtain ⟨c, v, hc⟩ := List.exists_cons_of_ne_nil (Text.ne_nil_of_isName hv)
  have starts : Text.startsName c = true := by
    rw [hc, Text.isName, Bool.and_eq_true] at hv
    exact hv.1
  have head : StartsName (b.var ++ (gap ++ '=' :: t)) :=
    ⟨c, v ++ (gap ++ '=' :: t), by rw [hc]; rfl, starts⟩
  refine ⟨lay, _, hs, hl, head, ?_⟩
  have drop : s.dropWhile Text.isLayout = b.var ++ (gap ++ '=' :: t) := by
    rw [hs]
    exact Text.dropWhile_append_of_head hl head.isLayout
  obtain ⟨v', s₁, h₁, h₂⟩ := bind_eq_some.mp h
  obtain ⟨_, s₀, h₀, h₁⟩ := bind_eq_some.mp h₁
  have skip : (b.var ++ (gap ++ '=' :: t)).dropWhile Text.isLayout = s₀ := by
    rw [← layout_eq_some.mp h₀, ← drop, List.dropWhile_idempotent]
  exact bind_eq_some.mpr ⟨v', s₁, bind_eq_some.mpr ⟨(), s₀, layout_eq_some.mpr skip, h₁⟩, h₂⟩

/-- May stand in a type. -/
def inType (c : Char) : Bool :=
  Text.isLayout c || Text.inName c || c == '*' || c == ':'

/-- Is made of what may stand in a type, and the last word of it is whole before `r`. -/
structure TypeBefore (r p : Text) : Prop where
  chars : ∀ c ∈ p, inType c = true
  whole : ∀ c d, p.getLast? = some c → r.head? = some d → Text.inName c = true →
    Text.inName d = false

theorem TypeBefore.append {r p q : Text} (hp : ∀ c ∈ p, inType c = true) (hq : TypeBefore r q)
    (hne : q ≠ []) : TypeBefore r (p ++ q) where
  chars c hc := (List.mem_append.mp hc).elim (hp c) (hq.chars c)
  whole c d hl := hq.whole c d (by rwa [List.getLast?_append_of_ne_nil _ hne] at hl)

/-- A part of a type is one with what follows it, which may be nothing. -/
theorem TypeBefore.trans {r p q : Text} (hp : TypeBefore (q ++ r) p)
    (hq : q = [] ∨ TypeBefore r q) : TypeBefore r (p ++ q) := by
  rcases eq_or_ne q [] with rfl | hne
  · rwa [List.append_nil]
  · exact (hq.resolve_left hne).append hp.chars hne

/-- A token of a type is a part of one. -/
theorem typeBefore_of_typeToken {s r : Text} {u : Unit} (h : typeToken s = some (u, r)) :
    ∃ p, s = p ++ r ∧ p ≠ [] ∧ TypeBefore r p := by
  obtain ⟨a, w, rfl, lay, token⟩ := exists_of_typeToken h
  -- a token that is no word ends with no character of a name
  have mark : ∀ v : Text, (∀ c ∈ v, inType c = true ∧ Text.inName c = false) → TypeBefore r v :=
    fun v hv => ⟨fun c hc => (hv c hc).1, fun c d hl _ hn => by
      rw [(hv c (List.mem_of_getLast? hl)).2] at hn
      cases hn⟩
  have whole : w ≠ [] ∧ TypeBefore r w := by
    rcases token with word | rfl | rfl
    · obtain ⟨hw, taken, left⟩ := run1_eq_some.mp word
      refine ⟨hw, fun c hc => ?_, fun c d _ hd _ => ?_⟩
      · simp [inType, List.mem_takeWhile_imp (taken.symm ▸ hc)]
      · have := List.head?_dropWhile_not Text.inName (w ++ r)
        rw [left, hd] at this
        simpa using this
    · exact ⟨by simp, mark _ (List.forall_mem_singleton.mpr (by decide))⟩
    · exact ⟨by simp, mark _ (List.forall_mem_cons.mpr
        ⟨by decide, List.forall_mem_singleton.mpr (by decide)⟩)⟩
  exact ⟨a ++ w, (List.append_assoc a w r).symm, by simp [whole.1],
    whole.2.append (fun c hc => by simp [inType, lay c hc]) whole.1⟩

/-- Tokens of a type, one after the other, are a part of one. -/
theorem typeBefore_of_repeated (s : Text) : ∃ q, s = q ++ (repeated typeToken s).2 ∧
    (q = [] ∨ TypeBefore (repeated typeToken s).2 q) := by
  fun_induction repeated typeToken s with
  | case1 => exact ⟨[], rfl, .inl rfl⟩
  | case2 s a r shorter read as t e ih =>
    rw [e] at ih
    obtain ⟨q, hq, more⟩ := ih
    obtain ⟨p, rfl, -, first⟩ := typeBefore_of_typeToken ((progress_eq_some _).mp read)
    rw [hq] at first
    exact ⟨p ++ q, by rw [List.append_assoc, ← hq], .inr (first.trans more)⟩

/-- A type is read in tokens, each of which a sweep passes over. -/
theorem typeBefore_of_typeForm {s r type : Text} (h : typeForm s = some (type, r)) :
    ∃ p, s = p ++ r ∧ p ≠ [] ∧ TypeBefore r p := by
  obtain ⟨s₁, token, rfl⟩ := exists_of_typeForm h
  obtain ⟨p, rfl, hne, first⟩ := typeBefore_of_typeToken token
  obtain ⟨q, hq, more⟩ := typeBefore_of_repeated s₁
  rw [hq] at first
  exact ⟨p ++ q, by rw [List.append_assoc, ← hq], by simp [hne], first.trans more⟩

/-- A type and an assignment. -/
theorem exists_start_of_typed {s s₁ r type : Text} {b : Binding}
    (ht : typeForm s = some (type, s₁)) (h : assignment s₁ = some (b, r)) :
    ∃ p x, s = p ++ x ∧ p ≠ [] ∧ (∀ c ∈ p, inType c = true) ∧
      (∀ c, p.getLast? = some c → Text.inName c = false) ∧ StartsName x ∧
      assignment x = some (b, r) := by
  obtain ⟨p, rfl, hne, hp⟩ := typeBefore_of_typeForm ht
  obtain ⟨lay, x, rfl, hl, hx, h⟩ := exists_start_of_assignment h
  refine ⟨p ++ lay, x, by rw [List.append_assoc], by simp [hne],
    fun c hc => (List.mem_append.mp hc).elim (hp.chars c) fun hc => by simp [inType, hl c hc],
    fun c hc => ?_, hx, h⟩
  by_cases hl0 : lay = []
  · subst hl0
    rw [List.append_nil] at hc
    obtain ⟨d, r, rfl, hd⟩ := hx
    rw [Bool.eq_false_iff]
    intro hn
    have := hp.whole c d hc rfl hn
    rw [Text.inName_of_startsName hd] at this
    cases this
  · rw [List.getLast?_append_of_ne_nil _ hl0] at hc
    exact Text.inName_of_isLayout (hl c (List.mem_of_getLast? hc))

/-! ### The sweep for assignments -/

theorem not_mem_var {b : Binding} {s r : Text} {c : Char} (h : assignment s = some (b, r))
    (hc : Text.inName c = false) : c ∉ b.var :=
  Text.not_mem_of_class (Text.all_inName_of_isName (isName_of_assignment h)) hc

/-- Where a name begins, and is no part of another, an assignment that begins before it has its
equals sign before it. -/
theorem equals_mem_front {a y r : Text} {b : Binding} (ha : a ≠ [])
    (hq : assignment (a ++ y) = some (b, r))
    (hl : ∀ c, a.head? = some c → Text.isLayout c = false) (hs : StartsName y)
    (hstart : ∀ c, a.getLast? = some c → Text.inName c = false) : '=' ∈ a := by
  obtain ⟨lay, gap, t, e, hlay, hgap⟩ := parts_of_assignment hq
  obtain ⟨c, x, rfl, hc⟩ := hs
  have hlay0 : lay = [] := by
    obtain ⟨c, a', rfl⟩ := List.exists_cons_of_ne_nil ha
    cases lay with
    | nil => rfl
    | cons d lay =>
      obtain ⟨rfl, -⟩ := List.cons_eq_cons.mp e
      exact absurd List.mem_cons_self (Text.not_mem_of_class hlay (hl _ rfl))
  subst hlay0
  rw [List.nil_append, ← List.append_assoc b.var] at e
  rcases List.append_eq_append_iff.mp e with ⟨k, hk, hx⟩ | ⟨k, hk, hx⟩
  · rcases List.append_eq_append_iff.mp hk with ⟨m, rfl, hg⟩ | ⟨m, hm, hg⟩
    · -- `a` is the variable and a part of the gap behind it
      cases k with
      | nil =>
        cases hx
        cases hc
      | cons d k =>
        cases hx
        have := hgap c (hg ▸ List.mem_append_right _ List.mem_cons_self)
        rw [Text.isLayout_of_startsName hc] at this
        cases this
    · -- `a` is a part of the variable
      have last := hstart _ (List.getLast?_eq_getLast_of_ne_nil ha)
      rw [Text.all_inName_of_isName (isName_of_assignment hq) _
        (hm ▸ List.mem_append_left m (List.getLast_mem ha))] at last
      cases last
  · cases k with
    | nil =>
      cases hx
      cases hc
    | cons d k =>
      obtain ⟨rfl, -⟩ := List.cons_eq_cons.mp hx
      exact hk ▸ List.mem_append_right _ List.mem_cons_self

/-- What an assignment ends with holds its parenthesis. -/
theorem paren_mem {x y v w r : Text} {b : Binding} (h : assignment x = some (b, r))
    (e : y ++ x = v ++ (w ++ r)) (hw : w ≠ []) : ')' ∈ w := by
  obtain ⟨z, rfl⟩ := exists_paren h
  have ends : y ++ z ++ [')'] = v ++ w := List.append_cancel_right (by simpa using e)
  have last := congrArg List.getLast? ends
  rw [List.getLast?_concat, List.getLast?_append_of_ne_nil _ hw] at last
  exact List.mem_of_getLast? last.symm

/-- An assignment that ends behind the beginning of another one ends behind its equals sign. -/
theorem equals_mem_back {a w r r' : Text} {b b' : Binding} (hw : w ≠ [])
    (hq : assignment (a ++ (w ++ r)) = some (b, r)) (hx : assignment (w ++ r) = some (b', r')) :
    '=' ∈ w := by
  obtain ⟨lay, gap, t, e, hlay, hgap⟩ := parts_of_assignment hx
  -- the parenthesis that ends the first is in `w`, and before the equals sign there is none
  have hp : ')' ∈ w := paren_mem hq (List.nil_append _) hw
  have before : ')' ∉ lay ++ (b'.var ++ gap) := by
    have paren : Text.isLayout ')' = false := rfl
    simp [Text.not_mem_of_class hlay paren, Text.not_mem_of_class hgap paren,
      not_mem_var hx (c := ')') rfl]
  rw [← List.append_assoc b'.var, ← List.append_assoc lay] at e
  rcases List.append_eq_append_iff.mp e with ⟨k, hk, -⟩ | ⟨k, hk, hx'⟩
  · exact absurd (hk ▸ List.mem_append_left k hp) before
  · cases k with
    | nil =>
      rw [List.append_nil] at hk
      exact absurd (hk ▸ hp) before
    | cons d k =>
      obtain ⟨rfl, -⟩ := List.cons_eq_cons.mp hx'
      exact hk ▸ List.mem_append_right _ List.mem_cons_self

/-- No assignment goes over another one, unless its cast holds an equals sign. -/
theorem not_over {a w r r' : Text} {b b' : Binding} (ha : a ≠ []) (hw : w ≠ [])
    (hq : assignment (a ++ (w ++ r)) = some (b, r)) (hx : assignment (w ++ r) = some (b', r'))
    (hl : ∀ c, a.head? = some c → Text.isLayout c = false) (hs : StartsName (w ++ r))
    (hstart : ∀ c, a.getLast? = some c → Text.inName c = false) :
    (a ++ w).count '=' ≠ 1 := by
  have front := List.one_le_count_iff.mpr (equals_mem_front ha hq hl hs hstart)
  have back := List.one_le_count_iff.mpr (equals_mem_back hw hq hx)
  rw [List.count_append]
  omega

/-- What the two readings find begins and ends in the code, and no cast holds an equals sign. -/
structure Tidy (s : Text) : Prop where
  bared : Bared s
  declared : ∀ f ∈ sweep declaration codeGap s, (.code, f.here) ∈ walk .code s
  assigned : ∀ f ∈ sweep assignment codeGap s,
    (.code, f.here) ∈ walk .code s ∧ (.code, f.rest) ∈ walk .code s
  casts : ∀ f ∈ sweep assignment codeGap s, f.text.count '=' = 1

variable {s : Text}

/-- **An assignment at a place of the code is found.** -/
theorem mem_sweep_assignment (hs : Tidy s) {x r : Text} {b : Binding}
    (hx : (.code, x) ∈ walk .code s) (hw : Begins s x) (hn : StartsName x)
    (h : assignment x = some (b, r)) : ⟨b, x, r⟩ ∈ sweep assignment codeGap s := by
  refine mem_sweep_of_place closed_assignment hs.bared (fun f hf => (hs.assigned f hf).2)
    (fun f hf hlen => ?_) hx hw hn.isLayout h
  by_contra hover
  rw [Nat.not_le] at hover
  have xs := (suffix_of_mem_walk hx).1
  obtain ⟨hh, hr⟩ := hs.assigned f hf
  -- `f` begins before `x` and ends behind it
  obtain ⟨a, ha⟩ := List.suffix_of_suffix_length_le xs (suffix_of_mem_walk hh).1 hlen.le
  obtain ⟨w, rfl⟩ := List.suffix_of_suffix_length_le (suffix_of_mem_walk hr).1 xs hover.le
  have ha0 : a ≠ [] := by
    rintro rfl
    rw [← ha] at hlen
    exact absurd hlen (lt_irrefl _)
  have hw0 : w ≠ [] := by
    rintro rfl
    exact absurd hover (lt_irrefl _)
  have hi := item_of_mem_sweep hf
  rw [← ha] at hi
  have once := hs.casts f hf
  have text : f.text = a ++ w := by
    rw [Found.text, ← ha, ← List.append_assoc, Text.upTo_append_self]
  rw [text] at once
  refine not_over ha0 hw0 hi h ?_ hn ?_ once
  · intro c hc
    have head : f.here.head? = some c := by rw [← ha, List.head?_append_of_ne_nil _ ha0, hc]
    exact isLayout_of_mem_sweep hf head
  · intro c hc
    obtain ⟨p, hp⟩ := (suffix_of_mem_walk hh).1
    obtain ⟨before, hbefore, hend⟩ := hw
    refine hend c ?_
    have : before = p ++ a := by
      refine List.append_cancel_right (hbefore.symm.trans ?_)
      rw [← hp, ← ha, List.append_assoc]
    rw [this, List.getLast?_append_of_ne_nil _ ha0, hc]

/-! ### Slots -/

/-- The slot says what the binding says: the variable, the macro, the argument and the cast. -/
structure Reports (slot : ArgSlot) (b : Binding) : Prop where
  var : slot.var = b.var
  kind : slot.kind = b.kind
  index : slot.index = number b.digits
  cast : ∀ type, b.type? = some type → slot.type? = some type

/-- Of two suffixes the one with more bytes is the longer one. -/
theorem length_lt_of_byteLength_lt {x y : Text} (hx : x <:+ s) (hy : y <:+ s)
    (h : Text.byteLength x < Text.byteLength y) : x.length < y.length := by
  by_contra hle
  have := Text.byteLength_le_of_suffix
    (List.suffix_of_suffix_length_le hy hx (Nat.not_lt.mp hle))
  omega

/-- A declaration that overlaps an assignment ends with it. -/
theorem value_of_overlaps (hs : Tidy s) {d a : Found Binding}
    (hd : d ∈ sweep declaration codeGap s) (ha : a ∈ sweep assignment codeGap s)
    (h : (d.span none s).overlaps (a.span none s) = true) :
    ∃ type, d.value = { a.value with type? := a.value.type? <|> some type } := by
  have hdeclared := hs.declared d hd
  obtain ⟨hhere, hrest⟩ := hs.assigned a ha
  have dss := (suffix_of_mem_walk hdeclared).1
  have ass := (suffix_of_mem_walk hhere).1
  have ars := (suffix_of_mem_walk hrest).1
  obtain ⟨type, s₁, htype, hdecl⟩ := bind_eq_some.mp (item_of_mem_sweep hd)
  obtain ⟨b', s₂, hassign, hdecl⟩ := bind_eq_some.mp hdecl
  obtain ⟨hvalue, rfl⟩ := pure_eq_some.mp hdecl
  obtain ⟨p, x, e, hp0, hp, hend, hx, hread⟩ := exists_start_of_typed htype hassign
  have drs : d.rest <:+ s := (closed_declaration.suffix (item_of_mem_sweep hd)).trans dss
  simp only [Span.overlaps, Found.span, Span.between, Bool.not_eq_true', Bool.or_eq_false_iff,
    decide_eq_false_iff_not, ge_iff_le, Text.offset_le_iff drs ass, Text.offset_le_iff ars dss,
    not_le] at h
  have before := length_lt_of_byteLength_lt drs ass h.1
  have behind := length_lt_of_byteLength_lt ars dss h.2
  obtain ⟨q, hq⟩ := dss
  -- the assignment that the declaration ends with is found on its own
  have place : (.code, x) ∈ walk .code s := by
    refine code_append hs.bared (w := p) (fun c hc => ?_) (e ▸ hdeclared)
    exact isQuote_of_class inType rfl rfl (hp c hc)
  have begins : Begins s x := by
    refine ⟨q ++ p, by rw [List.append_assoc, ← e, hq], fun c hc => hend c ?_⟩
    rwa [List.getLast?_append_of_ne_nil _ hp0] at hc
  have found := mem_sweep_assignment hs place begins hx hread
  have apart : (⟨b', x, d.rest⟩ : Found Binding) = a ∨ a.here.length ≤ d.rest.length ∨
      x.length ≤ a.rest.length := by
    refine or_iff_not_imp_left.mpr fun hne => ?_
    exact (apart_of_mem_sweep found ha hne).symm
  rcases apart with rfl | h | h
  · exact ⟨type, hvalue.symm⟩
  · omega
  · -- otherwise the parenthesis that ends `a` would be in the type
    exfalso
    obtain ⟨k, hk⟩ := List.suffix_of_suffix_length_le ars ⟨q, hq⟩ behind.le
    have hk0 : k ≠ [] := by
      rintro rfl
      rw [← hk] at behind
      exact absurd behind (lt_irrefl _)
    obtain ⟨m, hm⟩ := List.suffix_of_suffix_length_le (suffix_of_mem_walk place).1 ars h
    have hpk : p = k ++ m := by
      refine List.append_cancel_right (e.symm.trans ?_)
      rw [← hk, ← hm, List.append_assoc]
    obtain ⟨y, hy⟩ := ass
    have last : ')' ∈ k :=
      paren_mem (y := y) (v := q) (item_of_mem_sweep ha) (by rw [hy, hk, hq]) hk0
    exact absurd (hp ')' (hpk ▸ List.mem_append_left m last)) (by decide)

/-- A binding is reported by the slot that was made of it. -/
theorem reports_of_ofBinding? {slot : ArgSlot} {b b' : Binding} (h : ofBinding? b = some slot)
    (hb : ∃ type?, b = { b' with type? := b'.type? <|> type? }) : Reports slot b' := by
  obtain ⟨type?, rfl⟩ := hb
  rw [ofBinding?] at h
  split_ifs at h
  cases h
  exact ⟨rfl, rfl, rfl, fun type ht => by simp [ht]⟩

/-- **An assignment that is found is reported as a slot**, as the declaration that ends with it if
there is one. -/
theorem exists_slot_of_mem (hs : Tidy s) {a : Found Binding} (ha : a ∈ sweep assignment codeGap s)
    (hn : number a.value.digits ≤ maxIndex) : ∃ slot ∈ ofBody s, Reports slot a.value := by
  suffices h : ∃ slot ∈ found s, Reports slot a.value by
    obtain ⟨slot, hm, hr⟩ := h
    exact ⟨slot, List.mem_mergeSort.mpr hm, hr⟩
  rw [found_eq, merged]
  by_cases h : ((sweep declaration codeGap s).any fun d => (ofBinding? d.value).isSome &&
      (d.span none s).overlaps (a.span none s)) = true
  · obtain ⟨d, hd, h⟩ := List.any_eq_true.mp h
    rw [Bool.and_eq_true, Option.isSome_iff_exists] at h
    obtain ⟨⟨slot, hslot⟩, h⟩ := h
    obtain ⟨type, hvalue⟩ := value_of_overlaps hs hd ha h
    exact ⟨slot, List.mem_append_left _ (List.mem_filterMap.mpr ⟨d, hd, hslot⟩),
      reports_of_ofBinding? hslot ⟨_, hvalue⟩⟩
  · have hslot : ofBinding? a.value =
        some ⟨a.value.kind, a.value.var, number a.value.digits, a.value.type?⟩ := if_pos hn
    refine ⟨_, List.mem_append_right _ (List.mem_filterMap.mpr ⟨a, ha, ?_⟩),
      reports_of_ofBinding? hslot ⟨none, by simp⟩⟩
    rw [if_neg h, hslot]

/-- **An assignment at a place of the code is reported as a slot.** -/
theorem exists_slot_of_place (hs : Tidy s) {x r : Text} {b : Binding}
    (hx : (.code, x) ∈ walk .code s) (hw : Begins s x) (hn : StartsName x)
    (h : assignment x = some (b, r)) (hm : number b.digits ≤ maxIndex) :
    ∃ slot ∈ ofBody s, Reports slot b :=
  exists_slot_of_mem hs (mem_sweep_assignment hs hx hw hn h) hm

/-! ### Rows of bindings -/

/-- Reads a binding statement, with or without a type. -/
def statementForm : Scan Binding := do
  let b ← (do let _ ← typeForm; assignment) <|> assignment
  symbol ";"
  pure b

/-- The words that no type has. -/
def controlWords : List Text :=
  ["if".toList, "else".toList, "for".toList, "while".toList, "do".toList, "switch".toList,
    "case".toList, "default".toList, "return".toList, "goto".toList]

/-- The line is made of binding statements and nothing else: without literals, and with no word
that would make one of them a part of another statement. -/
structure IsRow (t : Text) (bs : List Binding) : Prop where
  nonempty : bs ≠ []
  reads : repeated statementForm t = (bs, [])
  quoteless : t.any isQuote = false
  controlless : ∀ w ∈ controlWords, .identifier w ∉ Text.tokens t

/-- A binding statement has its assignment at the beginning of a word. -/
theorem exists_start_of_statement {t s₁ : Text} {b : Binding}
    (h : ((typeForm >>= fun _ => assignment) <|> assignment) t = some (b, s₁)) :
    ∃ u x, t = u ++ x ∧ StartsName x ∧ (∀ c, u.getLast? = some c → Text.inName c = false) ∧
      assignment x = some (b, s₁) := by
  rcases orElse_eq_some.mp h with h | ⟨-, h⟩
  · obtain ⟨type, s₂, ht, h⟩ := bind_eq_some.mp h
    obtain ⟨p, x, e, -, -, hend, hx, hread⟩ := exists_start_of_typed ht h
    exact ⟨p, x, e, hx, hend, hread⟩
  · obtain ⟨lay, x, e, hl, hx, hread⟩ := exists_start_of_assignment h
    exact ⟨lay, x, e, hx, fun c hc => Text.inName_of_isLayout (hl c (List.mem_of_getLast? hc)),
      hread⟩

/-- Every binding of a row stands in it, at the beginning of a word. -/
theorem IsRow.exists_start {t : Text} {bs : List Binding} (h : IsRow t bs) {b : Binding}
    (hb : b ∈ bs) : ∃ u x r, t = u ++ x ∧ StartsName x ∧
      (∀ c, u.getLast? = some c → Text.inName c = false) ∧ assignment x = some (b, r) := by
  have reads : ∀ t : Text, b ∈ (repeated statementForm t).1 → ∃ u x r, t = u ++ x ∧
      StartsName x ∧ (∀ c, u.getLast? = some c → Text.inName c = false) ∧
      assignment x = some (b, r) := by
    intro t
    fun_induction repeated statementForm t with
    | case1 =>
      intro h
      cases h
    | case2 t b₁ r hr hp as z e ih =>
      intro hm
      obtain ⟨b₂, s₁, h₁, h₂⟩ := bind_eq_some.mp ((progress_eq_some _).mp hp)
      obtain ⟨_, s₂, h₃, h₄⟩ := bind_eq_some.mp h₂
      obtain ⟨rfl, rfl⟩ := pure_eq_some.mp h₄
      obtain ⟨u, x, rfl, hx, hend, hread⟩ := exists_start_of_statement h₁
      rcases List.mem_cons.mp hm with rfl | hm
      · exact ⟨u, x, s₁, rfl, hx, hend, hread⟩
      · -- the next statement stands behind the semicolon
        rw [e] at ih
        obtain ⟨u', x', r, hu, hx', hend', hread'⟩ := ih hm
        have mark : ';' :: s₂ <:+ u ++ x := by
          have : s₁.dropWhile Text.isLayout = ';' :: s₂ := symbol_eq_some.mp h₃
          rw [← this]
          exact (List.dropWhile_suffix _).trans
            ((closed_assignment.suffix hread).trans (List.suffix_append _ _))
        obtain ⟨w, hw⟩ := mark
        refine ⟨w ++ ';' :: u', x', r, by rw [← hw, hu]; simp, hx', fun c hc => ?_, hread'⟩
        rw [List.getLast?_append_cons] at hc
        cases u' with
        | nil =>
          cases hc
          decide
        | cons d u' =>
          rw [List.getLast?_cons_cons] at hc
          exact hend' c hc
  refine reads t ?_
  rw [h.reads]
  exact hb

end VectorWrap.ArgSlot
