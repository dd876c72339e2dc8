import VectorWrap.Proofs.Implementation.Bindings
import VectorWrap.Proofs.Implementation.Regions

/-!
# Reading a body with and without its comments

Slots and return macros are read in a body as it is written, the working lines in the body without
its comments.  Both readings find the same where comments stand between the things that are read:
bindings, return macros and words (`reads_stripComments`).  A comment inside one of these is no
comment to the scans, which do not look for one there.

The proof goes through the body and the stripped body in lockstep.  At a place of the code both
sweeps take one step (`step`): they find the same thing, or they pass over the same name, literal,
comment or character, and come to the same place again.

The conditions are about the things that are read, each of them apart from comments (`Apart`,
`Clear`), and about the body, in which every comment and every literal must end.  Positions move
when comments are taken out, so that overlaps are compared by the order of positions only
(`Found.InCode.overlaps_strip`).
-/

namespace VectorWrap
open Scan Line

namespace Scan

variable {α : Type} {item : Scan α}

/-! ### Comments between readings -/

/-- What `p` reads at a place of the code, of the text or of the stripped text, has no comment
inside. -/
def Undivided (p : Scan α) (s : Text) : Prop :=
  (∀ x ∈ p s, x.2 ∈ unbroken s) ∧ ∀ x ∈ p (stripComments s), x.2 ∈ (unbroken s).map stripComments

/-- Comments stand apart from what `item` reads. -/
structure Apart (item : Scan α) (s : Text) : Prop where
  whole : ∀ p ∈ walk .code s, p.1 = .code → Undivided item p.2
  /-- Behind a line comment nothing is read. -/
  behind : ∀ p ∈ walk .code s, p.1 = .line → sweep item codeGap (stripFrom .line p.2) = []

/-- Comments stand apart from words, and no backslash in a literal escapes layout. -/
structure Clear (s : Text) : Prop where
  words : ∀ p ∈ walk .code s, p.1 = .code → Undivided name p.2
  escapes : ∀ p ∈ walk .code s, p.1.escapes → p.2.head?.any Text.isLayout = false

instance {p : Scan α} {s : Text} : Decidable (Undivided p s) :=
  inferInstanceAs (Decidable (_ ∧ _))

instance {s : Text} : Decidable (Apart item s) :=
  decidable_of_iff (_ ∧ _) ⟨fun h => ⟨h.1, h.2⟩, fun h => ⟨h.1, h.2⟩⟩

instance {s : Text} : Decidable (Clear s) :=
  decidable_of_iff (_ ∧ _) ⟨fun h => ⟨h.1, h.2⟩, fun h => ⟨h.1, h.2⟩⟩

/-- What is apart from comments in a body is so from any place of its code on. -/
theorem Apart.of_place {s r : Text} (h : Apart item s) (hr : (.code, r) ∈ walk .code s) :
    Apart item r where
  whole p hp := h.whole p (walk_subset hr hp)
  behind p hp := h.behind p (walk_subset hr hp)

/-- What is clear of comments in a body is so from any place of its code on. -/
theorem Clear.of_place {s r : Text} (h : Clear s) (hr : (.code, r) ∈ walk .code s) : Clear r where
  words p hp := h.words p (walk_subset hr hp)
  escapes p hp := h.escapes p (walk_subset hr hp)

/-! ### One step of both sweeps -/

/-- What both sweeps do at a place of the code. -/
inductive Step (item : Scan α) (s : Text) : Prop where
  | ends (h : sweep item codeGap s = []) (h' : sweep item codeGap (stripComments s) = [])
  | passes {r : Text} (hr : (.code, r) ∈ walk .code s) (hl : r.length < s.length)
      (h : sweep item codeGap s = sweep item codeGap r)
      (h' : sweep item codeGap (stripComments s) = sweep item codeGap (stripComments r))
  | finds {r : Text} {a : α} (hr : (.code, r) ∈ walk .code s) (hl : r.length < s.length)
      (h : sweep item codeGap s = ⟨a, s, r⟩ :: sweep item codeGap r)
      (h' : sweep item codeGap (stripComments s) =
        ⟨a, stripComments s, stripComments r⟩ :: sweep item codeGap (stripComments r))

/-- Reads nothing where a comment or a literal may begin. -/
def Bare (item : Scan α) : Prop :=
  ∀ {c : Char} (s : Text), isQuote c = true ∨ c = '/' → item (c :: s) = none

/-- One step over layout. -/
theorem step_layout {c : Char} (hl : Text.isLayout c = true) (s : Text) : Step item (c :: s) := by
  have hq := isQuote_of_isLayout hl
  have ho : ¬ opensComment c s := by
    rintro ⟨rfl, -⟩
    cases hl
  obtain ⟨hk, hr⟩ := kept hq ho
  exact .passes hr (by simp) (sweep_layout hl s) (by rw [hk, sweep_layout hl])

/-- One step over a literal. -/
theorem step_quote (hb : Bare item) {c : Char} {s : Text} (hq : isQuote c = true)
    (ht : Terminated (c :: s)) (hc : Clear (c :: s)) : Step item (c :: s) := by
  have ho : ¬ opensComment c s := by
    rintro ⟨rfl, -⟩
    cases hq
  have ha : afterCode c = .literal c false := if_pos (by simpa [isQuote] using hq)
  have hw := walk_code ho
  rw [ha] at hw
  have hsub : walk (.literal c false) s ⊆ walk .code (c :: s) := by
    rw [hw]
    exact List.subset_cons_self _ _
  obtain ⟨w, r, rfl, hl, hr, hk, hclose⟩ := literal_parts (fun p hp => ht p (hsub hp))
    fun p hp => hc.escapes p (hsub hp)
  have hs : stripComments (c :: (w ++ r)) = c :: (w ++ stripComments r) := by
    rw [stripComments, stripFrom_code ho, ha, hk]
  have hlayout := not_isLayout_of_isQuote hq
  refine .passes (hsub hr) (by simp only [List.length_cons]; omega)
    (sweep_gap hlayout (hb _ (.inl hq)) (codeGap_literal hq (hclose r))
      (Text.length_lt_cons_append c w r)) ?_
  rw [hs]
  exact sweep_gap hlayout (hb _ (.inl hq)) (codeGap_literal hq (hclose _))
    (Text.length_lt_cons_append c w _)

/-- One step over a comment, of which the stripped body has the line feeds. -/
theorem step_comment (hb : Bare item) {c : Char} {s : Text} (ho : opensComment c s)
    (ht : Terminated (c :: s)) (ha : Apart item (c :: s)) : Step item (c :: s) := by
  obtain ⟨rfl, ho⟩ := ho
  cases s with
  | nil => simp at ho
  | cons d s =>
    simp only [List.head?_cons, Option.some.injEq] at ho
    rcases ho with rfl | rfl
    · have hsub : walk (.block false) s ⊆ walk .code ('/' :: '*' :: s) :=
        List.subset_cons_self _ _
      obtain ⟨w, r, hw, hl, hr, hk, a, he⟩ := block_parts fun p hp => ht p (hsub hp)
      have hs : stripComments ('/' :: '*' :: s) = w ++ stripComments r := by
        rw [stripComments, stripFrom, hk]
      refine .passes (hsub hr) (by simp only [List.length_cons]; omega)
        (sweep_gap (by decide) (hb _ (.inr rfl)) (codeGap_block he)
          (by simp only [List.length_cons]; omega)) ?_
      rw [hs]
      refine sweep_congr (List.dropWhile_append_of_pos fun x hx => ?_)
      rw [hw x hx]
      rfl
    · -- for the scans a line comment never ends; in the stripped text nothing follows it
      have hm : (.line, s) ∈ walk .code ('/' :: '/' :: s) :=
        List.mem_cons_of_mem _ (mem_walk _ _)
      refine .ends ?_ ?_
      · rw [sweep_gap (by decide) (hb _ (.inr rfl)) (codeGap_line s) (by simp), sweep_nil]
      · rw [stripComments, stripFrom]
        exact ha.behind _ hm rfl

/-- What `item` reads at a place it reads in the stripped text as well, and nothing else. -/
theorem Undivided.read (hc : Closed item) {s : Text} (h : Undivided item s) :
    (item s = none ∧ item (stripComments s) = none) ∨
      ∃ a r, r ∈ unbroken s ∧ item s = some (a, r) ∧
        item (stripComments s) = some (a, stripComments r) := by
  cases e : item s with
  | some x =>
    obtain ⟨a, r⟩ := x
    have hr : r ∈ unbroken s := h.1 _ e
    obtain ⟨w, rfl, hw⟩ := strip_append hr
    refine .inr ⟨a, r, hr, rfl, ?_⟩
    rw [hw]
    exact hc.append (r := []) e
  | none =>
    refine .inl ⟨rfl, ?_⟩
    cases e' : item (stripComments s) with
    | none => rfl
    | some x =>
      obtain ⟨a, x⟩ := x
      obtain ⟨r, hr, rfl⟩ := List.mem_map.mp (h.2 _ e')
      obtain ⟨w, rfl, hw⟩ := strip_append hr
      rw [hw] at e'
      have : item (w ++ r) = some (a, r) := hc.append (r := []) e'
      rw [e] at this
      cases this

/-- What stands behind the run of a name is in no name. -/
theorem inName_eq_false_of_dropWhile {s t : Text} {c : Char}
    (h : s.dropWhile Text.inName = c :: t) : Text.inName c = false := by
  have hne : s.dropWhile Text.inName ≠ [] := by simp [h]
  have := List.head_dropWhile_not Text.inName hne
  simpa [h] using this

/-- What is left of the stripped text behind a word is behind that word in the text too. -/
theorem dropWhile_of_strip {r s : Text} (h : stripComments r = s.dropWhile Text.inName) :
    r.dropWhile Text.inName = r := by
  cases r with
  | nil => rfl
  | cons d t =>
    refine List.dropWhile_cons_of_neg ?_
    rw [Bool.not_eq_true]
    by_cases hd : opensComment d t
    · rw [hd.1]
      rfl
    · rw [stripComments, stripFrom_code hd] at h
      exact inName_eq_false_of_dropWhile h.symm

/-- A word ends in the text where it ends in the stripped text. -/
theorem word_parts {c : Char} {s : Text} (h : Undivided name (c :: s)) (ho : ¬ opensComment c s)
    (hq : isQuote c = false) (hn : Text.startsName c = true) :
    (c :: s).dropWhile Text.inName ∈ unbroken (c :: s) ∧
      (stripComments (c :: s)).dropWhile Text.inName =
        stripComments ((c :: s).dropWhile Text.inName) := by
  obtain ⟨hk, -⟩ := kept hq ho
  have hc : Text.inName c = true := Text.inName_of_startsName hn
  have hd : name (stripComments (c :: s)) =
      some (c :: (stripComments s).takeWhile Text.inName,
        (stripComments s).dropWhile Text.inName) := by
    rw [hk]
    simp [name, hn]
  -- the word of the stripped text stands in the text, up to a place `r`
  obtain ⟨r, hr, hx⟩ := List.mem_map.mp (h.2 _ hd)
  obtain ⟨w, hw, hw'⟩ := strip_append hr
  have hword : w = c :: (stripComments s).takeWhile Text.inName := by
    rw [hx, hk] at hw'
    refine List.append_cancel_right (hw'.symm.trans ?_)
    rw [List.cons_append, List.takeWhile_append_dropWhile]
  have hall : ∀ d ∈ w, Text.inName d = true := by
    rw [hword]
    intro d hd
    rcases List.mem_cons.mp hd with rfl | hd
    · exact hc
    · exact List.mem_takeWhile_imp hd
  have hrest : (c :: s).dropWhile Text.inName = r := by
    rw [hw, List.dropWhile_append_of_pos hall, dropWhile_of_strip hx]
  rw [hrest, hx, hk, List.dropWhile_cons_of_pos hc]
  exact ⟨hr, rfl⟩

/-- **Both sweeps do the same at a place of the code.** -/
theorem step (hcl : Closed item) (hb : Bare item) {s : Text} (ht : Terminated s) (hc : Clear s)
    (ha : Apart item s) : Step item s := by
  cases s with
  | nil => exact .ends sweep_nil sweep_nil
  | cons c s =>
    by_cases hl : Text.isLayout c = true
    · exact step_layout hl s
    by_cases hq : isQuote c = true
    · exact step_quote hb hq ht hc
    by_cases ho : opensComment c s
    · exact step_comment hb ho ht ha
    rw [Bool.not_eq_true] at hl hq
    obtain ⟨hk, hs⟩ := kept hq ho
    rcases (ha.whole _ (mem_walk _ _) rfl).read hcl with ⟨e, e'⟩ | ⟨a, r, hr, e, e'⟩
    · by_cases hn : Text.startsName c = true
      · obtain ⟨hr, hd⟩ := word_parts (hc.words _ (mem_walk _ _) rfl) ho hq hn
        have hlen : ∀ t : Text, ((c :: t).dropWhile Text.inName).length < (c :: t).length :=
          fun t => by
            rw [List.dropWhile_cons_of_pos (Text.inName_of_startsName hn)]
            exact Nat.lt_succ_of_le (Text.length_dropWhile_le _ _)
        refine .passes (code_of_mem_unbroken hr) (hlen s)
          (sweep_gap hl e (codeGap_name hq ho hn) (hlen s)) ?_
        rw [← hd]
        rw [hk] at e' ⊢
        exact sweep_gap hl e' (codeGap_name hq (not_opensComment_strip ho) hn) (hlen _)
      · rw [Bool.not_eq_true] at hn
        refine .passes hs (by simp) (sweep_char hl e (codeGap_eq_none hq ho hn)) ?_
        rw [hk] at e' ⊢
        exact sweep_char hl e' (codeGap_eq_none hq (not_opensComment_strip ho) hn)
    · refine .finds (code_of_mem_unbroken hr) (hcl.shrinks e)
        (sweep_item hl e (hcl.shrinks e)) ?_
      rw [hk] at e' ⊢
      exact sweep_item hl e' (hcl.shrinks e')

/-! ### Runs of both sweeps -/

end Scan

/-- The same thing in the stripped text. -/
def Found.strip {α : Type} (f : Found α) : Found α :=
  ⟨f.value, stripComments f.here, stripComments f.rest⟩

namespace Scan

variable {α : Type} {item : Scan α}

/-- **The sweep of a text and the sweep of the stripped text find the same.**  Everything that is
found begins and ends in the code. -/
theorem sweep_stripComments (hcl : Closed item) (hb : Bare item) {s : Text} (ht : Terminated s)
    (hc : Clear s) (ha : Apart item s) :
    sweep item codeGap (stripComments s) = (sweep item codeGap s).map Found.strip ∧
      ∀ f ∈ sweep item codeGap s,
        (.code, f.here) ∈ walk .code s ∧ (.code, f.rest) ∈ walk .code s := by
  -- every step leads to a shorter place of the code, from which comments stand apart as well
  induction hk : s.length using Nat.strong_induction_on generalizing s with
  | _ k ih =>
    cases step hcl hb ht hc ha with
    | ends h h' => simp [h, h']
    | passes hr hl h h' =>
      obtain ⟨h₁, h₂⟩ := ih _ (hk ▸ hl) (ht.of_place hr) (hc.of_place hr) (ha.of_place hr) rfl
      rw [h, h']
      exact ⟨h₁, fun f hf => ⟨walk_subset hr (h₂ f hf).1, walk_subset hr (h₂ f hf).2⟩⟩
    | finds hr hl h h' =>
      obtain ⟨h₁, h₂⟩ := ih _ (hk ▸ hl) (ht.of_place hr) (hc.of_place hr) (ha.of_place hr) rfl
      rw [h, h', h₁]
      refine ⟨rfl, fun f hf => ?_⟩
      rcases List.mem_cons.mp hf with rfl | hf
      · exact ⟨mem_walk _ _, hr⟩
      · exact ⟨walk_subset hr (h₂ f hf).1, walk_subset hr (h₂ f hf).2⟩

end Scan

/-! ### Bindings and macros -/

theorem Scan.eq_of_isQuote {c : Char} (h : isQuote c = true ∨ c = '/') :
    c = '"' ∨ c = '\'' ∨ c = '/' := by
  simpa [isQuote, or_assoc] using h

namespace ArgSlot

theorem bare_declaration : Bare declaration := fun s h => by
  rcases eq_of_isQuote h with rfl | rfl | rfl <;> rfl

theorem bare_assignment : Bare assignment := fun s h => by
  rcases eq_of_isQuote h with rfl | rfl | rfl <;> rfl

/-- The slots of what the two readings have found: the declared ones, then the assigned ones that
overlap none of them. -/
def merged (overlap : Found Binding → Found Binding → Bool)
    (declared assigned : List (Found Binding)) : List ArgSlot :=
  declared.filterMap (fun d => ofBinding? d.value) ++ assigned.filterMap fun a =>
    if declared.any fun d => (ofBinding? d.value).isSome && overlap d a then none
    else ofBinding? a.value

theorem any_pass (form : Scan Binding) (body : Text) (p : Span → Bool) :
    ((pass form body).any fun x => p x.2) = (sweep form codeGap body).any fun f =>
      (ofBinding? f.value).isSome && p (f.span none body) := by
  rw [pass, List.any_filterMap]
  congr 1
  funext f
  cases ofBinding? f.value <;> rfl

/-- The bindings of a body are those of both searches, merged by whether they overlap. -/
theorem found_eq (body : Text) :
    found body = merged (fun d a => (d.span none body).overlaps (a.span none body))
      (sweep declaration codeGap body) (sweep assignment codeGap body) := by
  have hd : (pass declaration body).map Prod.fst =
      (sweep declaration codeGap body).filterMap fun d => ofBinding? d.value := by
    simp [pass, List.map_filterMap, Option.map_map, Function.comp_def]
  rw [merged, ← hd, found, List.map_append]
  congr 1
  have ha : pass assignment body = (sweep assignment codeGap body).filterMap fun a =>
      (ofBinding? a.value).map fun slot => (slot, a.span none body) := rfl
  rw [ha, List.filter_filterMap, List.map_filterMap]
  refine List.filterMap_congr fun a _ => ?_
  -- only slots are compared, as in `merged`
  rw [← any_pass declaration body fun seen => seen.overlaps (a.span none body)]
  cases ofBinding? a.value with
  | none => simp
  | some slot =>
    simp only [Option.map_some, Option.filter_some, Bool.not_eq_true']
    split <;> rename_i h
    · simp [h]
    · rw [Bool.not_eq_false] at h
      simp [h]

/-- Merging does not depend on the texts but on what overlaps. -/
theorem merged_map {g : Found Binding → Found Binding} (hg : ∀ f, (g f).value = f.value)
    {overlap overlap' : Found Binding → Found Binding → Bool} {ds as : List (Found Binding)}
    (h : ∀ d ∈ ds, ∀ a ∈ as, overlap' (g d) (g a) = overlap d a) :
    merged overlap' (ds.map g) (as.map g) = merged overlap ds as := by
  simp only [merged, List.filterMap_map, List.any_map, Function.comp_def, hg]
  congr 1
  refine List.filterMap_congr fun a ha => ?_
  have hany : (ds.any fun d => (ofBinding? d.value).isSome && overlap' (g d) (g a)) =
      ds.any fun d => (ofBinding? d.value).isSome && overlap d a := by
    rw [Bool.eq_iff_iff]
    simp only [List.any_eq_true]
    refine exists_congr fun d => and_congr_right fun hd => ?_
    rw [h d hd a ha]
  rw [hany]
end ArgSlot

/-- Of two suffixes the longer one begins first. -/
theorem Text.offset_le_iff {body s t : Text} (hs : s <:+ body) (ht : t <:+ body) :
    byteLength body - byteLength s ≤ byteLength body - byteLength t ↔
      byteLength t ≤ byteLength s := by
  have := byteLength_le_of_suffix hs
  have := byteLength_le_of_suffix ht
  omega

/-- A thing that begins and ends in the code, with a character that opens no comment. -/
structure Found.InCode {α : Type} (body : Text) (f : Found α) : Prop where
  here : (.code, f.here) ∈ walk .code body
  rest : (.code, f.rest) ∈ walk .code body
  kept : ∃ c s, f.here = c :: s ∧ ¬ opensComment c s

/-- One thing is before another in the stripped body exactly if it is in the body. -/
theorem Found.InCode.before_iff {α β : Type} {body : Text} {f : Found α} {g : Found β}
    (hf : f.InCode body) (hg : g.InCode body) :
    (f.strip.span none (stripComments body)).stop ≤ (g.strip.span none (stripComments body)).start ↔
      (f.span none body).stop ≤ (g.span none body).start := by
  obtain ⟨h₁, h₁'⟩ := suffix_of_mem_walk hf.rest
  obtain ⟨h₂, h₂'⟩ := suffix_of_mem_walk hg.here
  obtain ⟨c, s, e, ho⟩ := hg.kept
  have h := hg.here
  rw [e] at h
  refine (Text.offset_le_iff h₁' h₂').trans (Iff.trans ?_ (Text.offset_le_iff h₁ h₂).symm)
  rw [e]
  exact byteLength_strip_le_iff ho hf.rest h

/-- Two things overlap in the stripped body exactly if they do in the body. -/
theorem Found.InCode.overlaps_strip {α β : Type} {body : Text} {f : Found α} {g : Found β}
    (hf : f.InCode body) (hg : g.InCode body) :
    (f.strip.span none (stripComments body)).overlaps (g.strip.span none (stripComments body)) =
      (f.span none body).overlaps (g.span none body) := by
  simp only [Span.overlaps, ge_iff_le, hf.before_iff hg, hg.before_iff hf]

/-- What a sweep finds begins and ends in the code. -/
theorem Found.inCode_of_mem_sweep {α : Type} {item : Scan α} (hcl : Closed item) (hb : Bare item)
    {body : Text} (ht : Terminated body) (hc : Clear body) (ha : Apart item body) {f : Found α}
    (hf : f ∈ sweep item codeGap body) : f.InCode body := by
  obtain ⟨hh, hr⟩ := (sweep_stripComments hcl hb ht hc ha).2 f hf
  refine ⟨hh, hr, ?_⟩
  have hi := item_of_mem_sweep hf
  cases e : f.here with
  | nil =>
    have := hcl.shrinks hi
    rw [e] at this
    simp at this
  | cons c s =>
    refine ⟨c, s, rfl, fun ho => ?_⟩
    rw [e, hb s (.inr ho.1)] at hi
    cases hi

/-- The slots of the stripped body are those of the body. -/
theorem ArgSlot.found_stripComments {body : Text} (ht : Terminated body) (hc : Clear body)
    (hd : Apart ArgSlot.declaration body) (ha : Apart ArgSlot.assignment body) :
    ArgSlot.found (stripComments body) = ArgSlot.found body := by
  rw [found_eq, found_eq, (sweep_stripComments closed_declaration bare_declaration ht hc hd).1,
    (sweep_stripComments closed_assignment bare_assignment ht hc ha).1]
  refine merged_map (g := Found.strip) (fun _ => rfl) fun d hd' a ha' => ?_
  exact (Found.inCode_of_mem_sweep closed_declaration bare_declaration ht hc hd hd').overlaps_strip
    (Found.inCode_of_mem_sweep closed_assignment bare_assignment ht hc ha ha')

theorem Return.bare_macroForm : Bare Return.macroForm := fun s h => by
  rcases eq_of_isQuote h with rfl | rfl | rfl <;> rfl

/-- The returns of the stripped body are those of the body. -/
theorem Return.kinds_stripComments {body : Text} (ht : Terminated body) (hc : Clear body)
    (hm : Apart Return.macroForm body) : Return.kinds (stripComments body) = Return.kinds body := by
  rw [kinds_eq, kinds_eq, (sweep_stripComments closed_macroForm bare_macroForm ht hc hm).1,
    List.map_map]
  rfl

/-- **Slots and return kinds are those of the body without its comments**, if comments stand apart
from the bindings, the return macros and the words, and nothing of these follows a line comment. -/
theorem reads_stripComments {body : Text} (ht : Terminated body) (hc : Clear body)
    (hd : Apart ArgSlot.declaration body) (ha : Apart ArgSlot.assignment body)
    (hm : Apart Return.macroForm body) :
    ArgSlot.ofBody (stripComments body) = ArgSlot.ofBody body ∧
      Return.summary (stripComments body) = Return.summary body := by
  rw [ArgSlot.ofBody, ArgSlot.found_stripComments ht hc hd ha, Return.summary,
    Return.kinds_stripComments ht hc hm]
  exact ⟨rfl, rfl⟩

/-- A body with comments behind a binding and behind the return. -/
def commented : Text :=
  "int x = PG_GETARG_INT32(0); /* not '\"' */\nx = f(x, '\\'');\nPG_RETURN_INT32(x); // done"

/-- The theorem for a body with comments between its statements. -/
theorem reads_stripComments_of_commented :
    ArgSlot.ofBody (stripComments commented) = ArgSlot.ofBody commented ∧
      Return.summary (stripComments commented) = Return.summary commented :=
  reads_stripComments (by decide +kernel) (by decide +kernel) (by decide +kernel)
    (by decide +kernel) (by decide +kernel)

/-- A comment between a type and its variable hides the type, in the body only. -/
theorem comment_hides_type :
    Terminated "int /* c */ x = PG_GETARG_INT32(0);" ∧
      ArgSlot.ofBody (stripComments "int /* c */ x = PG_GETARG_INT32(0);") ≠
        ArgSlot.ofBody "int /* c */ x = PG_GETARG_INT32(0);" := by
  decide +kernel

end VectorWrap
