import VectorWrap.Proofs.Implementation.Cuts
import VectorWrap.Proofs.Implementation.Regions

/-!
# Bodies that are read without fault

Reading a body can only fail where an assignment is cut inside a character.  The characters of the
processing lines are those of the body and some spaces between joined lines, so that in a body of
ASCII characters no line is cut (`exists_ofBody`).

So this is a case of the exact condition (`exists_ofBody_iff`, in `Implementation/Cuts.lean`), kept
apart because sources that are written in ASCII need no look at their lines.
-/

namespace VectorWrap

namespace Text

/-- Has ASCII characters only. -/
def Ascii (s : Text) : Prop :=
  ∀ c ∈ s, c.toNat < 128

instance (s : Text) : Decidable (Ascii s) :=
  decidable_of_iff (s.all (·.toNat < 128) = true) (by simp [Ascii, List.all_eq_true])

theorem Ascii.of_subset {s t : Text} (h : Ascii t) (hs : s ⊆ t) : Ascii s :=
  fun c hc => h c (hs hc)

theorem ascii_cons {c : Char} {s : Text} : Ascii (c :: s) ↔ c.toNat < 128 ∧ Ascii s :=
  List.forall_mem_cons

theorem ascii_append {s t : Text} : Ascii (s ++ t) ↔ Ascii s ∧ Ascii t :=
  List.forall_mem_append

theorem utf8Size_of_ascii {c : Char} (h : c.toNat < 128) : c.utf8Size = 1 := by
  rw [Char.utf8Size_eq_one_iff, UInt32.le_iff_toNat_le]
  exact Nat.le_of_lt_succ h

end Text

open Text

/-! ### Processing lines -/

namespace Line

/-- Lines that are joined by spaces stay ASCII. -/
theorem ascii_joinFrom {pending : Text} {depth : Int} {ts : List Text} (hp : Ascii pending)
    (ht : ∀ t ∈ ts, Ascii t) : ∀ l ∈ joinFrom pending depth ts, Ascii l := by
  induction ts generalizing pending depth with
  | nil =>
    intro l hl
    rw [joinFrom] at hl
    split at hl
    · cases hl
    · rwa [List.mem_singleton.mp hl]
  | cons t ts ih =>
    have rest : ∀ u ∈ ts, Ascii u := fun u hu => ht u (List.mem_cons_of_mem t hu)
    have joined : Ascii (if pending.isEmpty then t else pending ++ ' ' :: t) := by
      have h := ht t List.mem_cons_self
      split
      · exact h
      · exact ascii_append.mpr ⟨hp, ascii_cons.mpr ⟨by decide, h⟩⟩
    intro l hl
    rw [joinFrom] at hl
    split at hl
    · rcases List.mem_cons.mp hl with rfl | hl
      · exact joined
      · exact ih (List.forall_mem_nil _) rest l hl
    · exact ih joined rest l hl

/-- The logical lines of an ASCII body are ASCII. -/
theorem ascii_logical {body : Text} (h : Ascii body) : ∀ l ∈ logical body, Ascii l := by
  refine ascii_joinFrom (List.forall_mem_nil _) fun t ht => ?_
  obtain ⟨s, hs, rfl⟩ := List.mem_map.mp (List.mem_filter.mp ht).1
  have part : trim s <:+: stripComments body := (trim_isInfix s).trans (infix_of_mem_splitBy hs)
  exact (h.of_subset (stripFrom_subset .code body)).of_subset part.subset

/-- The processing lines of a body of ASCII characters have no others. -/
theorem ascii_of_mem {body l : Text} (h : Ascii body) (hl : l ∈ ofBody body) : Ascii l := by
  obtain ⟨line, hm, hl⟩ := List.mem_flatMap.mp hl
  have part : l <:+: line := (infix_of_mem_working hl).trans (unbrace_isInfix line)
  exact (ascii_logical h line hm).of_subset part.subset

end Line

/-! ### No cut fails -/

/-- A line of ASCII characters is cut between two of them. -/
theorem Assignment.not_cutsCharacter_of_ascii {line : Text} (h : Ascii line) :
    ¬ Assignment.CutsCharacter line := by
  rintro ⟨l, r, x, c, v, hs, -, -, hl, -, -, several⟩
  have left : c ∈ l := (trim_isInfix l).subset (by simp [hl])
  obtain ⟨u, w, hline, -⟩ := exists_body line
  have mem : c ∈ line := by
    rw [hline, atEquals?_eq_some hs]
    simp [left]
  exact several (utf8Size_of_ascii (h c mem))

/-- **A body of ASCII characters is read without fault.** -/
theorem Implementation.exists_ofBody {body : Text} (h : Ascii body) (symbol : Text) (span : Span) :
    ∃ n, Implementation.ofBody symbol body span = .ok n ∧ n.symbol = symbol ∧ n.body = body := by
  obtain ⟨n, hn⟩ : ∃ n, ofBody symbol body span = .ok n := by
    refine exists_ofBody_iff.mpr ?_
    rintro ⟨line, last, lines, -, -, cut⟩
    have ascii : Ascii line := Line.ascii_of_mem h (by simp [lines])
    exact Assignment.not_cutsCharacter_of_ascii ascii cut
  obtain ⟨shape, -, rfl⟩ := exists_of_ofBody hn
  exact ⟨_, hn, rfl, rfl⟩

end VectorWrap
