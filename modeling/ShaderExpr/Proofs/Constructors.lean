import ShaderExpr.Proofs.Literals

/-!
# Vector constructors

The shapes that are listed for vectors of a dimension are all the ways to write its width as a sum of positive widths
(`Dim.mem_shapes`), so that a constructor takes exactly the arguments that its target decomposes into
(`ValueType.constructs_iff`).

A call of a constructor looks for a node of another graph first, then at the widths, and then at the literals.  What it
answers is told in `Session.perform_construct`.
-/

namespace ShaderExpr

variable {n : Nat}

/-- The compositions of the next number that one of a number gives: with another first part, or a greater one. -/
def incremented : List Nat → List (List Nat)
  | [] => [[1]]
  | part :: parts => [1 :: part :: parts, (part + 1) :: parts]

/-- The lists of positive numbers that have a sum. -/
def compositions : Nat → List (List Nat)
  | 0 => [[]]
  | total + 1 => (compositions total).flatMap incremented

theorem sum_of_mem_incremented {smaller parts : List Nat} (hpos : ∀ part ∈ smaller, 0 < part)
    (hparts : parts ∈ incremented smaller) : (∀ part ∈ parts, 0 < part) ∧ parts.sum = smaller.sum + 1 := by
  cases smaller with
  | nil =>
    rw [List.mem_singleton.1 hparts]
    decide
  | cons part rest =>
    rcases List.mem_pair.1 hparts with rfl | rfl
    · refine ⟨List.forall_mem_cons.2 ⟨Nat.one_pos, hpos⟩, ?_⟩
      rw [List.sum_cons]
      omega
    · refine ⟨List.forall_mem_cons.2 ⟨Nat.succ_pos part, (List.forall_mem_cons.1 hpos).2⟩, ?_⟩
      rw [List.sum_cons, List.sum_cons]
      omega

/-- Every composition comes from one of the number before: without its first part, if that is one, or with a smaller
first part. -/
theorem exists_mem_incremented {total : Nat} {parts : List Nat} (hpos : ∀ part ∈ parts, 0 < part)
    (hsum : parts.sum = total + 1) :
    ∃ smaller, (∀ part ∈ smaller, 0 < part) ∧ smaller.sum = total ∧ parts ∈ incremented smaller := by
  cases parts with
  | nil => exact absurd hsum nofun
  | cons part rest =>
    obtain ⟨hpart, hrest⟩ := List.forall_mem_cons.1 hpos
    rw [List.sum_cons] at hsum
    match part, hpart with
    | 1, _ =>
      refine ⟨rest, hrest, by omega, ?_⟩
      cases rest with
      | nil => exact List.mem_cons_self
      | cons => exact List.mem_cons_self
    | part + 2, _ =>
      refine ⟨(part + 1) :: rest, List.forall_mem_cons.2 ⟨Nat.succ_pos part, hrest⟩, ?_, ?_⟩
      · rw [List.sum_cons]
        omega
      · exact List.mem_cons_of_mem _ List.mem_cons_self

theorem mem_compositions {total : Nat} {parts : List Nat} :
    parts ∈ compositions total ↔ (∀ part ∈ parts, 0 < part) ∧ parts.sum = total := by
  induction total generalizing parts with
  | zero =>
    rw [compositions, List.mem_singleton]
    constructor
    · rintro rfl
      exact ⟨nofun, rfl⟩
    · rintro ⟨hpos, hsum⟩
      cases parts with
      | nil => rfl
      | cons part parts =>
        have := hpos part List.mem_cons_self
        rw [List.sum_cons] at hsum
        omega
  | succ total ih =>
    rw [compositions, List.mem_flatMap]
    constructor
    · rintro ⟨smaller, hsmaller, hparts⟩
      obtain ⟨hpos, rfl⟩ := ih.1 hsmaller
      exact sum_of_mem_incremented hpos hparts
    · rintro ⟨hpos, hsum⟩
      obtain ⟨smaller, hsmaller, htotal, hparts⟩ := exists_mem_incremented hpos hsum
      exact ⟨smaller, ih.2 ⟨hsmaller, htotal⟩, hparts⟩

example : compositions 3 = [[1, 1, 1], [2, 1], [1, 2], [3]] := by decide

/-- The shapes of vectors are all compositions of their width. -/
theorem Dim.mem_shapes {dim : Dim} (hdim : dim ≠ .scalar) {shape : List Nat} :
    shape ∈ dim.shapes ↔ (∀ width ∈ shape, 0 < width) ∧ shape.sum = dim.width := by
  rw [← mem_compositions]
  have hlisted : ∀ shape ∈ dim.shapes, shape ∈ compositions dim.width := by
    cases dim <;> decide
  have hall : ∀ shape ∈ compositions dim.width, shape ∈ dim.shapes := by
    cases dim with
    | scalar => exact absurd rfl hdim
    | d2 | d3 | d4 => decide
  exact ⟨hlisted shape, hall shape⟩

theorem Dim.width_pos (dim : Dim) : 0 < dim.width := by
  cases dim <;> decide

/-- The number of components that an argument contributes; a literal is one component. -/
def OperandType.width : OperandType → Nat
  | literal => 1
  | typed ty => ty.dim.width

/-- An argument is a literal, or a scalar or vector of the target's kind. -/
def OperandType.Suits (target : ValueType) : OperandType → Prop
  | literal => True
  | typed ty => ty.isMatrix = false ∧ ty.kind = target.kind

namespace OperandType

theorem width_pos (arg : OperandType) : 0 < arg.width := by
  cases arg with
  | literal => exact Nat.one_pos
  | typed ty => exact ty.dim.width_pos

theorem argumentWidth?_eq_some {target : ValueType} {arg : OperandType} {width : Nat} :
    target.argumentWidth? arg = some width ↔ arg.Suits target ∧ arg.width = width := by
  cases arg with
  | literal => exact ⟨fun h => ⟨trivial, Option.some.inj h⟩, fun h => congrArg some h.2⟩
  | typed ty =>
    unfold ValueType.argumentWidth? Suits OperandType.width
    dsimp only
    split
    · rename_i hty
      refine iff_of_false nofun ?_
      rintro ⟨⟨hmatrix, hkind⟩, _⟩
      rcases hty with hty | hty
      · exact absurd (hmatrix.symm.trans hty) Bool.false_ne_true
      · exact hty hkind
    · rename_i hty
      rw [not_or, Bool.not_eq_true, not_not] at hty
      exact ⟨fun h => ⟨hty, Option.some.inj h⟩, fun h => congrArg some h.2⟩

end OperandType

namespace ValueType

/-- A vector decomposes into arguments: they suit it, and have as many components together. -/
structure Decomposes (target : ValueType) (args : List OperandType) : Prop where
  vector : target.isVector = true
  suits : ∀ arg ∈ args, arg.Suits target
  width : (args.map OperandType.width).sum = target.dim.width

variable {target : ValueType} {args : List OperandType}

theorem mapM_argumentWidth? {widths : List Nat} :
    args.mapM target.argumentWidth? = some widths ↔
      (∀ arg ∈ args, arg.Suits target) ∧ args.map OperandType.width = widths := by
  rw [mapM_eq_some]
  induction args generalizing widths with
  | nil =>
    rw [List.forall₂_nil_left_iff]
    exact ⟨fun h => ⟨nofun, h.symm⟩, fun h => h.2.symm⟩
  | cons arg args ih =>
    cases widths with
    | nil => exact iff_of_false nofun fun h => absurd h.2 nofun
    | cons width widths =>
      rw [List.forall₂_cons, OperandType.argumentWidth?_eq_some, ih, List.forall_mem_cons, List.map_cons,
        List.cons.injEq]
      exact ⟨fun h => ⟨⟨h.1.1, h.2.1⟩, h.1.2, h.2.2⟩, fun h => ⟨⟨h.1.1, h.2.1⟩, h.1.2, h.2.2⟩⟩

theorem dim_ne_scalar (h : target.isVector = true) : target.dim ≠ .scalar := by
  unfold isVector isScalar at h
  simp only [Bool.and_eq_true, Bool.not_eq_true', decide_eq_false_iff_not] at h
  exact h.1

theorem constructs_iff : target.constructs args = true ↔ target.Decomposes args := by
  constructor
  · intro h
    unfold constructs at h
    split at h
    · rename_i widths hwidths
      obtain ⟨hsuits, rfl⟩ := mapM_argumentWidth?.1 hwidths
      have hmem := of_decide_eq_true h
      unfold shapes at hmem
      split at hmem
      · rename_i hvector
        exact ⟨hvector, hsuits, ((Dim.mem_shapes (dim_ne_scalar hvector)).1 hmem).2⟩
      · exact absurd hmem List.not_mem_nil
    · exact absurd h Bool.false_ne_true
  · rintro ⟨hvector, hsuits, hwidth⟩
    have hpos : ∀ width ∈ args.map OperandType.width, 0 < width :=
      List.forall_mem_map.2 fun arg _ => arg.width_pos
    unfold constructs shapes
    rw [mapM_argumentWidth?.2 ⟨hsuits, rfl⟩, if_pos hvector]
    exact decide_eq_true ((Dim.mem_shapes (dim_ne_scalar hvector)).2 ⟨hpos, hwidth⟩)

end ValueType

namespace Operand

variable {g : Fin n} {args : List (Operand n)}

/-- The operands are of a graph. -/
def AllOf (g : Fin n) (args : List (Operand n)) : Prop :=
  ∀ x, .node x ∈ args → x.graph = g

/-- The literals among the operands take a kind. -/
def AllUnify (kind : Kind) (args : List (Operand n)) : Prop :=
  ∀ x, .literal x ∈ args → ∃ value, x.unify? kind = some value

theorem checkOwners_eq_ok_iff_allOf : checkOwners g args = .ok () ↔ AllOf g args := by
  rw [checkOwners_eq_ok]
  constructor
  · intro h x hx
    exact checkOwner_node_eq_ok.1 (h _ hx)
  · intro h y hy
    cases y with
    | node x => exact checkOwner_node_eq_ok.2 (h x hy)
    | literal x => rfl

/-- The first operand of another graph is rejected, whatever comes after it. -/
theorem checkOwners_of_foreign {x : Node n} (hargs : AllOf g args) (hx : x.graph ≠ g) (rest : List (Operand n)) :
    checkOwners g (args ++ .node x :: rest) = .error (.foreign x.handle) := by
  induction args with
  | nil =>
    show ((node x).checkOwner g >>= fun _ => checkOwners g rest) = _
    unfold checkOwner
    dsimp only
    rw [if_neg hx]
    rfl
  | cons y args ih =>
    have hy : y.checkOwner g = .ok () :=
      (checkOwners_eq_ok.1 (checkOwners_eq_ok_iff_allOf.2 hargs)) y List.mem_cons_self
    show (y.checkOwner g >>= fun _ => checkOwners g (args ++ .node x :: rest)) = _
    rw [hy]
    exact ih fun z hz => hargs z (List.mem_cons_of_mem y hz)

theorem allUnify_iff {kind : Kind} : AllUnify kind args ↔ ∃ sources, args.mapM (source? kind) = some sources := by
  rw [← all_unifies_iff, List.all_eq_true]
  constructor
  · intro h y hy
    cases y with
    | node x => rfl
    | literal x =>
      obtain ⟨value, hvalue⟩ := h x hy
      exact unifies_iff.2 ⟨.constant value, congrArg (Option.map Source.constant) hvalue⟩
  · intro h x hx
    obtain ⟨source, hsource⟩ := unifies_iff.1 (h _ hx)
    obtain ⟨value, hvalue, _⟩ := Option.map_eq_some_iff.1 hsource
    exact ⟨value, hvalue⟩

end Operand

namespace Node

variable {g : Fin n} {target : ValueType} {args : List (Operand n)}

theorem checkConstruct_of_foreign {x : Node n} (hargs : Operand.AllOf g args) (hx : x.graph ≠ g)
    (rest : List (Operand n)) : checkConstruct g target (args ++ .node x :: rest) = .error (.foreign x.handle) := by
  unfold checkConstruct
  rw [Operand.checkOwners_of_foreign hargs hx]
  rfl

/-- Arguments of the graph that do not make up the target are rejected, with all of their types. -/
theorem exists_checkConstruct_eq_error (hargs : Operand.AllOf g args)
    (hnot : ¬ (target.Decomposes (args.map Operand.type) ∧ Operand.AllUnify target.kind args)) :
    ∃ reason, checkConstruct g target args = .error reason ∧
      reason.error = .shapeMismatch target (args.map Operand.type) := by
  have howners := Operand.checkOwners_eq_ok_iff_allOf.2 hargs
  by_cases hdecomposes : target.Decomposes (args.map Operand.type)
  · have hshape := ValueType.checkArguments_eq_ok.2 (ValueType.constructs_iff.2 hdecomposes)
    have hsources : args.mapM (Operand.source? target.kind) = none := by
      refine Option.eq_none_iff_forall_ne_some.2 ?_
      intro sources hsources
      exact hnot ⟨hdecomposes, Operand.allUnify_iff.2 ⟨sources, hsources⟩⟩
    refine ⟨.unfitLiteral target (args.map Operand.type), ?_, rfl⟩
    unfold checkConstruct
    dsimp only
    rw [howners, hshape, hsources]
    rfl
  · have hshape : target.checkArguments (args.map Operand.type) = .error (.shape target (args.map Operand.type)) :=
      if_neg fun h => hdecomposes (ValueType.constructs_iff.1 h)
    refine ⟨.shape target (args.map Operand.type), ?_, rfl⟩
    unfold checkConstruct
    dsimp only
    rw [howners, hshape]
    rfl

theorem exists_checkConstruct_eq_ok (hargs : Operand.AllOf g args) (hshape : target.Decomposes (args.map Operand.type))
    (hunify : Operand.AllUnify target.kind args) : ∃ sources, checkConstruct g target args = .ok sources := by
  obtain ⟨sources, hsources⟩ := Operand.allUnify_iff.1 hunify
  have hshape := ValueType.checkArguments_eq_ok.2 (ValueType.constructs_iff.2 hshape)
  exact ⟨sources, checkConstruct_eq_ok.2 ⟨Operand.checkOwners_eq_ok_iff_allOf.2 hargs, hshape, hsources⟩⟩

end Node

namespace Session

/-- What a call of a constructor answers is known from its check. -/
private theorem reply_construct (s : Session n) (g : Fin n) (target : ValueType) (args : List (Operand n)) :
    (s.perform (.construct g target args)).1 =
      match Node.checkConstruct g target args with
      | .ok sources => .ok (.node (Node.nextIn (Source.allRecordedIn (s.builder g) sources) g target))
      | .error reason => .error reason.error := by
  show ((Node.construct g target args >>= fun x => pure (Reply.node x)).run (s.builder g)).1 = _
  rw [Build.run_bind, Node.run_construct]
  cases Node.checkConstruct g target args <;> rfl

/-- A constructor takes exactly the arguments that its target decomposes into.  A call of it is rejected for the first
node of another graph, if there is one, and otherwise if the arguments do not make up the target or a literal among them
does not fit; in all other cases it is accepted. -/
theorem perform_construct (s : Session n) (g : Fin n) (target : ValueType) (args : List (Operand n)) :
    (∀ types, target.checkArguments types = .ok () ↔ target.Decomposes types) ∧
      (∀ before x rest, args = before ++ .node x :: rest → Operand.AllOf g before → x.graph ≠ g →
        (s.perform (.construct g target args)).1 = .error (.foreignNode x.handle)) ∧
      (Operand.AllOf g args → ¬ (target.Decomposes (args.map Operand.type) ∧ Operand.AllUnify target.kind args) →
        (s.perform (.construct g target args)).1 = .error (.shapeMismatch target (args.map Operand.type))) ∧
      (Operand.AllOf g args → target.Decomposes (args.map Operand.type) → Operand.AllUnify target.kind args →
        ∃ h, (s.perform (.construct g target args)).1 = .ok (.node ⟨g, h, target, false⟩)) := by
  refine ⟨?_, ?_, ?_, ?_⟩
  · intro types
    exact ValueType.checkArguments_eq_ok.trans ValueType.constructs_iff
  · rintro before x rest rfl hbefore hx
    rw [reply_construct, Node.checkConstruct_of_foreign hbefore hx]
    rfl
  · intro hargs hnot
    obtain ⟨reason, hcheck, herror⟩ := Node.exists_checkConstruct_eq_error hargs hnot
    rw [reply_construct, hcheck]
    exact congrArg _ herror
  · intro hargs hshape hunify
    obtain ⟨sources, hcheck⟩ := Node.exists_checkConstruct_eq_ok hargs hshape hunify
    rw [reply_construct, hcheck]
    exact ⟨_, rfl⟩

end Session

end ShaderExpr
