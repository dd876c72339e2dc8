import VectorWrap.Proofs.Implementation.Marks
import VectorWrap.Proofs.Wrapper.NullGuard

/-!
# The block structure of copied lines

A closure copies the processing lines of a body before its return (`forall₂_copied`), and these have
lost the braces at their ends.  So a block under a head is left to one statement, and what follows
in it leaves the conditional (`statement_escapes`).

The structure is kept where a body loses only what it can do without: braces around one statement,
or braces that stand under no head, and parts that are no head's only statement, as long as no
`else` comes to stand behind another `if`.  That is, the code of the body is a tree of which what is
left is again sound (`LaidOut`); then every copied statement is governed by the heads that govern it
in the body, and the braces are balanced (`keeps_structure`).
-/

namespace VectorWrap
open Line Reader

/-- The shapes whose lines before the return are all copied. -/
def Shape.isCopied : Shape → Bool
  | .filled .. | .block .. => true
  | _ => false

/-- The code of the body before its return is the tree, of which the processing lines leave what is
again sound. -/
structure LaidOut (body : Text) (t : Tree) : Prop where
  divisible : Divisible body
  sound : t.Sound
  kept : t.kept.Sound
  code : ∃ returned, bodyMarks body = t.marks ++ returned ∧
    ∀ last ∈ (Line.ofBody body).getLast?, Mark.rest returned = Text.code last

/-- The statements of the tree are those that the body begins with. -/
theorem LaidOut.statements_prefix {body : Text} {t : Tree} (ht : LaidOut body t)
    {statements : List Governed} (hr : read (Text.code (stripComments body)) = some statements) :
    t.statements [] <+: statements := by
  obtain ⟨returned, hmarks, -⟩ := ht.code
  obtain ⟨⟨r, o⟩, hrun, e⟩ := Option.bind_eq_some_iff.mp hr
  split_ifs at e
  cases e
  rw [← map_fst_bodyMarks ht.divisible, hmarks, List.map_append] at hrun
  obtain ⟨r₁, o₁, o₂, hfirst, -, rfl⟩ := run_append_eq_some.mp hrun
  obtain ⟨c?, hread⟩ := (Tree.run_tokens ht.sound [] none).2 rfl
  cases hfirst.symm.trans hread
  exact List.prefix_append _ _

namespace Closure

/-- A line of a closure is a line of a body with other names, and with a cast if it allocates. -/
def IsCopy (n : Implementation) (line copy : Text) : Prop :=
  copy = (outputRenaming n).text line ∨ castAlloc ((outputRenaming n).text line) = .ok copy

/-- The lines of a body are copied one by one. -/
theorem forall₂_copied {n : Implementation} (hs : n.shape.isCopied = true) {copies : List Text}
    (h : copied n.shape (outputRenaming n).text = .ok copies) :
    List.Forall₂ (IsCopy n) (source n.shape) copies := by
  cases e : n.shape with
  | filled setup call result =>
    rw [e] at h
    obtain ⟨copy, hc, h⟩ := bind_eq_ok.mp h
    cases h
    exact .cons (.inr hc) (.cons (.inl rfl) .nil)
  | block lines result =>
    rw [e] at h
    exact (mapM_eq_ok_iff.mp h).imp fun _ _ hc => .inr hc
  | _ =>
    rw [e] at hs
    cases hs

/-- All lines before the return are copied. -/
theorem source_eq {result : Text} {before : List Text} {nullable : Bool} {shape : Shape}
    (h : Shape.Built result before nullable shape) (hs : shape.isCopied = true) :
    source shape = before := by
  cases h with
  | filled | block => rfl
  | _ => cases hs

/-- A shape with copied lines is classified. -/
theorem isClassified_of_isCopied {shape : Shape} (h : shape.isCopied = true) :
    shape.isClassified = true := by
  cases shape with
  | unclassified => cases h
  | _ => rfl

/-- What is left of the tree is copied. -/
theorem code_source {symbol body : Text} {span : Span} {n : Implementation} {t : Tree}
    (hn : Implementation.ofBody symbol body span = .ok n) (hs : n.shape.isCopied = true)
    (ht : LaidOut body t) : (source n.shape).flatMap Text.code = t.kept.tokens := by
  obtain ⟨before, last, _, _, lines, -, -, -, built⟩ :=
    Shape.exists_of_classify (Implementation.parts_ofBody hn).2.2 (isClassified_of_isCopied hs)
  obtain ⟨returned, hmarks, hlast⟩ := ht.code
  have whole := rest_bodyMarks body
  rw [hmarks, Mark.rest_append, hlast last (by simp [lines]), lines, List.flatMap_append,
    List.flatMap_singleton] at whole
  rw [source_eq built hs, ← List.append_cancel_right whole, Tree.tokens, Tree.marks_kept]
  rfl

/-- **Where copied lines keep their structure.**  If a body is a tree of which the lines leave what
is sound, then the copied lines make statements of the body, each under the heads that govern it
there, and their braces are balanced. -/
theorem keeps_structure {symbol body : Text} {span : Span} {n : Implementation}
    (hn : Implementation.ofBody symbol body span = .ok n) (hs : n.shape.isCopied = true) {t : Tree}
    (ht : LaidOut body t) {statements : List Governed}
    (hr : read (Text.code (stripComments body)) = some statements) :
    ∃ left, read ((source n.shape).flatMap Text.code) = some left ∧ left.Sublist statements ∧
      BracesMatch ((source n.shape).flatMap Text.code) ∧
      ∀ (e : Emitter) (d : Declaration) (key : Text) (w : Wrapper),
        e.emit d n key = .ok (some w) → ∃ c copies,
          Closure.make e.types e.policy d n (Key.member key) (Emitter.kindOf key) = .ok c ∧
          w.source = Emitter.source e.structName (Key.member key) (Emitter.kindOf key)
            d.params.length c ∧
          copies <:+: c.body ∧ List.Forall₂ (IsCopy n) (source n.shape) copies := by
  have left := Tree.read_tokens ht.kept
  rw [← code_source hn hs ht] at left
  refine ⟨_, left, (Tree.statements_kept t []).trans (ht.statements_prefix hr).sublist,
    bracesMatch_of_read left, fun e d key w hw => ?_⟩
  obtain ⟨c, hc, hsource, -⟩ := Emitter.closure_of_emit hw
  obtain ⟨args, copies, guard, parts⟩ :=
    parts_of_make hc (placeholder_of_make hc (isClassified_of_isCopied hs))
  refine ⟨c, copies, hc, hsource, ?_, forall₂_copied hs parts.copied_eq⟩
  rw [parts.body_eq]
  exact ⟨args.flatMap (·.lines) ++ tagLines d c.typeParams n,
    guard ++ boundLines n.shape (outputRenaming n).text (returnType e.types d n) ++
      [] :: outputSection e.types d n c.retType, by simp⟩

/-- A body with a conditional of which each branch is one statement. -/
def branchingBody : Text :=
  "int32 n = PG_GETARG_INT32(0);\nif (c(n)) \x7b\n  f(n);\n\x7d\nelse g(n);\nPG_RETURN_INT32(h(n));"

/-- The code of that body before its return: the fetch is taken out, and the braces. -/
def branchingTree : Tree :=
  .seq (.cut (.simple (Text.code "int32 n = PG_GETARG_INT32(0);")))
    (.either (Text.code "if (c(n))") (.block true (.simple (Text.code "f(n);")))
      (.simple (Text.code "g(n);")))

/-- The theorem for that body. -/
theorem keeps_structure_of_branches : ∃ n w statements left,
    Implementation.ofBody "f" branchingBody ⟨none, 0, 0⟩ = .ok n ∧ n.shape.isCopied = true ∧
    LaidOut branchingBody branchingTree ∧
    Emitter.base.emit (.unary "integer" "integer") n "f" = .ok (some w) ∧
    read (Text.code (stripComments branchingBody)) = some statements ∧
    read ((source n.shape).flatMap Text.code) = some left ∧ left.Sublist statements ∧
    left.map (·.heads) = [[Text.code "if (c(n))"], [Token.elseWord :: Text.code "if (c(n))"]] := by
  obtain ⟨n, hn, h⟩ := exists_of_satisfies
    (x := Implementation.ofBody "f" branchingBody ⟨none, 0, 0⟩)
    (p := fun n => n.shape.isCopied && Emitter.emits (.unary "integer" "integer") n)
    (by decide +kernel)
  rw [Bool.and_eq_true] at h
  obtain ⟨w, hw, -⟩ := Emitter.exists_of_emits h.2
  have returned : bodyMarks branchingBody = branchingTree.marks ++
      Mark.left (Text.code "PG_RETURN_INT32(h(n));") := by
    decide +kernel
  have last : (Line.ofBody branchingBody).getLast? = some "PG_RETURN_INT32(h(n));".toList := by
    decide +kernel
  have laidOut : LaidOut branchingBody branchingTree :=
    ⟨by decide +kernel, by decide +kernel, by decide +kernel, _, returned, fun l hl => by
      cases last.symm.trans hl
      exact Mark.rest_left _⟩
  obtain ⟨statements, hr⟩ := Option.isSome_iff_exists.mp
    (by decide +kernel : (read (Text.code (stripComments branchingBody))).isSome = true)
  obtain ⟨left, hleft, hsub, -⟩ := keeps_structure hn h.1 laidOut hr
  refine ⟨n, w, statements, left, hn, h.1, laidOut, hw, hr, hleft, hsub, ?_⟩
  rw [code_source hn h.1 laidOut, Tree.read_tokens laidOut.kept] at hleft
  cases hleft
  rfl

/-- A body with a block of two statements under a head. -/
def blockBody : Text :=
  "int32 n = PG_GETARG_INT32(0);\nif (c(n)) \x7b\n  f(n);\n  g(n);\n\x7d\nPG_RETURN_INT32(h(n));"

/-- The second statement of the block is copied to where no head governs it. -/
theorem statement_escapes : ∃ n statements left,
    Implementation.ofBody "f" blockBody ⟨none, 0, 0⟩ = .ok n ∧ n.shape.isCopied = true ∧
    read (Text.code (stripComments blockBody)) = some statements ∧
    read ((source n.shape).flatMap Text.code) = some left ∧
    ⟨Text.code "g(n);", [Text.code "if (c(n))"]⟩ ∈ statements ∧
    ⟨Text.code "g(n);", []⟩ ∈ left ∧ ⟨Text.code "g(n);", []⟩ ∉ statements := by
  obtain ⟨n, hn, h⟩ := exists_of_satisfies (x := Implementation.ofBody "f" blockBody ⟨none, 0, 0⟩)
    (p := fun n => n.shape.isCopied && (read ((source n.shape).flatMap Text.code)).any
      fun left => decide ((⟨Text.code "g(n);", []⟩ : Governed) ∈ left)) (by decide +kernel)
  have governed : (read (Text.code (stripComments blockBody))).any (fun statements =>
      decide (⟨Text.code "g(n);", [Text.code "if (c(n))"]⟩ ∈ statements) &&
        decide (⟨Text.code "g(n);", []⟩ ∉ statements)) = true := by
    decide +kernel
  rw [Bool.and_eq_true] at h
  obtain ⟨left, hleft, escaped⟩ := (Option.any_eq_true ..).mp h.2
  obtain ⟨statements, hr, hs⟩ := (Option.any_eq_true ..).mp governed
  rw [Bool.and_eq_true] at hs
  exact ⟨n, statements, left, hn, h.1, hr, hleft, of_decide_eq_true hs.1,
    of_decide_eq_true escaped, of_decide_eq_true hs.2⟩

end Closure

end VectorWrap
