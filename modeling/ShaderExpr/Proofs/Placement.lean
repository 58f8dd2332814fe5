import ShaderExpr.Proofs.Backing
import ShaderExpr.Proofs.Concatenation

/-!
# Calls on a graph that others are recorded on

A call that is made on nodes of a graph of its own can be made, on the same nodes, where other vertices come first:
`Node.place` says which nodes these are, and `Builder.Continues` which builders.  The call is accepted there or
rejected with the same error, hands out the same nodes, and records the same (`Build.Placed`).  Only the error of
setting what is no uniform names a handle.
-/

namespace ShaderExpr

variable {n : Nat}

/-- The node of a graph of its own, on a graph where `count` vertices come first. -/
def Node.place (g : Fin n) (count : Nat) (x : Node 1) : Node n :=
  ⟨g, x.handle.shift count, x.ty, x.isVariable⟩

@[simp]
theorem Node.graph_place (g : Fin n) (count : Nat) (x : Node 1) : (x.place g count).graph = g := rfl

@[simp]
theorem Node.ty_place (g : Fin n) (count : Nat) (x : Node 1) : (x.place g count).ty = x.ty := rfl

@[simp]
theorem Node.isVariable_place (g : Fin n) (count : Nat) (x : Node 1) :
    (x.place g count).isVariable = x.isVariable := rfl

def Operand.place (g : Fin n) (count : Nat) : Operand 1 → Operand n
  | node x => .node (x.place g count)
  | literal x => .literal x

def Source.shift (count : Nat) : Source → Source
  | vertex h => .vertex (h.shift count)
  | constant value => .constant value

def Reply.place (g : Fin n) (count : Nat) : Reply 1 → Reply n
  | .done => .done
  | .node x => .node (x.place g count)
  | .variable v => .variable ⟨v.node.place g count⟩
  | .texture t => .texture ⟨t.texel.place g count, t.resource.shift count, t.uv.place g count, t.info⟩
  | .value v => .value v
  | .handle h => .handle (h.shift count)
  | .resource id => .resource id

theorem Reply.nodes_place (g : Fin n) (count : Nat) (r : Reply 1) :
    (r.place g count).nodes = r.nodes.map (Node.place g count) := by
  cases r <;> rfl

namespace Builder

variable {low : Graph} {b b' : Builder}

/-- `b'` has recorded `low`, and then what `b` has. -/
def Continues (b' : Builder) (low : Graph) (b : Builder) : Prop :=
  b'.graph = low.append b.graph

namespace Continues

theorem next_eq (hb : b'.Continues low b) : b'.graph.next = b.graph.next.shift low.size := by
  rw [hb, Graph.next_append]

theorem recorded (hb : b'.Continues low b) (v : Vertex) :
    (b'.recorded (v.shift low.size)).Continues low (b.recorded v) := by
  show b'.graph.push _ = low.append (b.graph.push v)
  rw [hb, Graph.append_push]

theorem rebound (hb : b'.Continues low b) (var expr : Handle) :
    (b'.rebound (var.shift low.size) (expr.shift low.size)).Continues low (b.rebound var expr) := by
  show b'.graph.rebind _ _ = low.append (b.graph.rebind var expr)
  rw [hb, Graph.append_rebind]

theorem labelled (hb : b'.Continues low b) (h : Handle) (name : String) :
    (b'.labelled (h.shift low.size) name).Continues low (b.labelled h name) := by
  show b'.graph.label _ _ = low.append (b.graph.label h name)
  rw [hb, Graph.append_label]

theorem nextIn_eq (hb : b'.Continues low b) (g : Fin n) (g' : Fin 1) (ty : ValueType) :
    Node.nextIn b' g ty = (Node.nextIn b g' ty).place g low.size := by
  unfold Node.nextIn
  rw [hb.next_eq]
  rfl

theorem handleIn_eq (hb : b'.Continues low b) (source : Source) :
    (source.shift low.size).handleIn b' = (source.handleIn b).shift low.size := by
  cases source with
  | vertex h => rfl
  | constant value => exact hb.next_eq

theorem recordedIn (hb : b'.Continues low b) (source : Source) :
    ((source.shift low.size).recordedIn b').Continues low (source.recordedIn b) := by
  cases source with
  | vertex h => exact hb
  | constant value => exact hb.recorded (.constant value)

theorem handlesIn_eq (hb : b'.Continues low b) (sources : List Source) :
    Source.handlesIn b' (sources.map (Source.shift low.size)) =
      (Source.handlesIn b sources).map (Handle.shift low.size) := by
  induction sources generalizing b b' with
  | nil => rfl
  | cons source sources ih =>
    show _ :: _ = _ :: _
    rw [hb.handleIn_eq, ih (hb.recordedIn source)]

theorem allRecordedIn (hb : b'.Continues low b) (sources : List Source) :
    (Source.allRecordedIn b' (sources.map (Source.shift low.size))).Continues low
      (Source.allRecordedIn b sources) := by
  induction sources generalizing b b' with
  | nil => exact hb
  | cons source sources ih => exact ih (hb.recordedIn source)

end Continues

end Builder

namespace Operand

variable {g : Fin n} {count : Nat}

theorem checkOwner_place (y : Operand 1) : (y.place g count).checkOwner g = .ok () := by
  cases y with
  | node x => exact if_pos rfl
  | literal x => rfl

theorem checkOwner_alone (g : Fin 1) (y : Operand 1) : y.checkOwner g = .ok () := by
  cases y with
  | node x => exact if_pos (Subsingleton.elim _ _)
  | literal x => rfl

theorem type_place (y : Operand 1) : (y.place g count).type = y.type := by
  cases y <;> rfl

theorem fits_place (ty : ValueType) (y : Operand 1) : (y.place g count).fits ty = y.fits ty := by
  cases y <;> rfl

theorem source?_place (kind : Kind) (y : Operand 1) :
    (y.place g count).source? kind = (y.source? kind).map (Source.shift count) := by
  cases y with
  | node x => rfl
  | literal x =>
    show (x.unify? kind).map Source.constant = ((x.unify? kind).map Source.constant).map _
    rw [Option.map_map]
    rfl

end Operand

/-- Errors of rejected calls name no vertex and no uniform. -/
theorem Rejection.shift_error (count : Nat) (reason : Rejection) : reason.error.shift count = reason.error := by
  cases reason <;> rfl

namespace Build

variable {α β σ τ : Type} {low : Graph} {place : α → β} {b b' : Builder}

/-- A call after `low` has the answer of a call on a graph of its own, and records the same. -/
structure Placed (low : Graph) (place : α → β) (alone : Except Error α × Builder)
    (placed : Except Error β × Builder) : Prop where
  answer : placed.1 = (alone.1.map place).mapError (Error.shift low.size)
  builder : placed.2.Continues low alone.2

namespace Placed

/-- A call that a check decides, if the check finds the same. -/
theorem checked {check : Except Rejection σ} {check' : Except Rejection τ} {accepted : σ → α × Builder}
    {accepted' : τ → β × Builder} {f : σ → τ} (hb : b'.Continues low b)
    (hcheck : check'.mapError Rejection.error = (check.map f).mapError Rejection.error)
    (hok : ∀ s, (accepted' (f s)).1 = place (accepted s).1 ∧ (accepted' (f s)).2.Continues low (accepted s).2) :
    Placed low place (Build.checked b check accepted) (Build.checked b' check' accepted') := by
  cases check with
  | ok s =>
    cases check' with
    | ok s' =>
      obtain rfl : s' = f s := Except.ok.inj hcheck
      exact ⟨congrArg Except.ok (hok s).1, (hok s).2⟩
    | error reason' => exact absurd hcheck nofun
  | error reason =>
    cases check' with
    | ok s' => exact absurd hcheck nofun
    | error reason' =>
      have herror : reason'.error = reason.error := Except.error.inj hcheck
      refine ⟨?_, hb⟩
      show Except.error reason'.error = Except.error (reason.error.shift low.size)
      rw [herror, reason.shift_error]

theorem lift {draft : Draft α} {draft' : Draft β} (hanswer : (draft'.run b').1 = place (draft.run b).1)
    (hbuilder : (draft'.run b').2.Continues low (draft.run b).2) :
    Placed low place ((liftM draft : Build α).run b) ((liftM draft' : Build β).run b') :=
  ⟨congrArg Except.ok hanswer, hbuilder⟩

/-- The reply of a call. -/
theorem map {call : Build α} {call' : Build β} {f : α → σ} {f' : β → τ} {place' : σ → τ}
    (hf : ∀ a, f' (place a) = place' (f a)) (h : Placed low place (call.run b) (call'.run b')) :
    Placed low place' ((call >>= fun a => pure (f a)).run b) ((call' >>= fun a => pure (f' a)).run b') := by
  obtain ⟨hanswer, hbuilder⟩ := h
  rw [run_bind, run_bind]
  rcases hrun : call.run b with ⟨e | a, c⟩ <;> rcases hrun' : call'.run b' with ⟨e' | a', c'⟩ <;>
    rw [hrun, hrun'] at hanswer hbuilder
  · exact ⟨congrArg Except.error (Except.error.inj hanswer), hbuilder⟩
  · exact absurd hanswer nofun
  · exact absurd hanswer nofun
  · obtain rfl : a' = place a := Except.ok.inj hanswer
    exact ⟨congrArg Except.ok (hf a), hbuilder⟩

end Placed

theorem placed_setUniform (hb : b'.Continues low b) (h : Handle) (value : Value) :
    Placed low id ((setUniform h value).run b) ((setUniform (h.shift low.size) value).run b') := by
  rw [run_setUniform, run_setUniform, hb, Graph.setUniform_append]
  rcases b.graph.setUniform h value with e | g
  · cases e <;> exact ⟨rfl, hb⟩
  · exact ⟨rfl, rfl⟩

end Build

/-! ### Calls on nodes -/

namespace Node

variable {low : Graph} {b b' : Builder} (hb : b'.Continues low b) (g : Fin n) (g₀ : Fin 1) (x : Node 1)
  (y : Operand 1)

theorem checkBinary_place (count : Nat) (op : BinaryOp) :
    checkBinary op (x.place g count) (y.place g count) =
      (checkBinary op x y).map fun (ty, source) => (ty, source.shift count) := by
  unfold checkBinary
  rw [ty_place, graph_place, y.checkOwner_place, y.checkOwner_alone, y.type_place, y.source?_place]
  show (op.check x.ty y.type >>= fun ty => _) = (op.check x.ty y.type >>= fun ty => _).map _
  cases op.check x.ty y.type with
  | error reason => rfl
  | ok ty => cases y.source? x.ty.kind <;> rfl

/-- Only the rejection of what is no variable has a handle. -/
theorem checkAssign_place (count : Nat) :
    (checkAssign (x.place g count) (y.place g count)).mapError Rejection.error =
      ((checkAssign x y).map (Source.shift count)).mapError Rejection.error := by
  cases hvariable : x.isVariable with
  | false =>
    unfold checkAssign
    rw [isVariable_place, hvariable]
    rfl
  | true =>
    have hvariable' : (x.place g count).isVariable = true := hvariable
    rw [checkAssign_eq hvariable, checkAssign_eq hvariable', ty_place, graph_place, y.checkOwner_place,
      y.checkOwner_alone, y.type_place, y.source?_place, y.fits_place]
    cases y.fits x.ty <;> cases y.source? x.ty.kind <;> rfl

theorem checkConstruct_place (count : Nat) (target : ValueType) (args : List (Operand 1)) :
    checkConstruct g target (args.map (Operand.place g count)) =
      (checkConstruct g₀ target args).map (List.map (Source.shift count)) := by
  have howners : Operand.checkOwners g (args.map (Operand.place g count)) = .ok () := by
    rw [Operand.checkOwners_eq_ok, List.forall_mem_map]
    exact fun y _ => y.checkOwner_place
  have howners₀ : Operand.checkOwners g₀ args = .ok () :=
    Operand.checkOwners_eq_ok.2 fun y _ => y.checkOwner_alone g₀
  have htypes : (args.map (Operand.place g count)).map Operand.type = args.map Operand.type := by
    rw [List.map_map]
    exact List.map_congr_left fun y _ => y.type_place
  have hsources : (args.map (Operand.place g count)).mapM (Operand.source? target.kind) =
      (args.mapM (Operand.source? target.kind)).map (List.map (Source.shift count)) := by
    rw [List.mapM_map, ← mapM_map_option]
    exact congrArg args.mapM (funext fun y => y.source?_place target.kind)
  unfold checkConstruct
  rw [howners, howners₀, htypes, hsources]
  show (target.checkArguments _ >>= fun _ => _) = (target.checkArguments _ >>= fun _ => _).map _
  cases target.checkArguments (args.map Operand.type) with
  | error reason => rfl
  | ok _ => cases args.mapM (Operand.source? target.kind) <;> rfl

include hb

theorem placed_binary (op : BinaryOp) :
    Build.Placed low (place g low.size) ((x.binary op y).run b)
      (((x.place g low.size).binary op (y.place g low.size)).run b') := by
  rw [run_binary, run_binary]
  refine .checked hb (congrArg _ (checkBinary_place g x y low.size op)) fun (ty, source) => ?_
  have hsource := hb.recordedIn source
  refine ⟨hsource.nextIn_eq g x.graph ty, ?_⟩
  dsimp only
  rw [hb.handleIn_eq]
  exact hsource.recorded (.op (.binary op) ty [x.handle, source.handleIn b])

/-- A call that a check on types decides, and that records one vertex. -/
theorem placed_unary {σ : Type} {check : Except Rejection σ} {ty : σ → ValueType} {v : σ → Vertex}
    {call : Build (Node 1)} {call' : Build (Node n)}
    (hrun : call.run b = Build.checked b check fun s => (nextIn b g₀ (ty s), b.recorded (v s)))
    (hrun' : call'.run b' = Build.checked b' check fun s =>
      (nextIn b' g (ty s), b'.recorded ((v s).shift low.size))) :
    Build.Placed low (place g low.size) (call.run b) (call'.run b') := by
  rw [hrun, hrun']
  refine .checked (f := id) hb ?_ fun s => ⟨hb.nextIn_eq g g₀ (ty s), hb.recorded (v s)⟩
  rw [Except.map_id]
  rfl

theorem placed_construct (target : ValueType) (args : List (Operand 1)) :
    Build.Placed low (place g low.size) ((construct g₀ target args).run b)
      ((construct g target (args.map (Operand.place g low.size))).run b') := by
  rw [run_construct, run_construct]
  refine .checked hb (congrArg _ (checkConstruct_place g g₀ low.size target args)) fun sources => ?_
  have hsources := hb.allRecordedIn sources
  refine ⟨hsources.nextIn_eq g g₀ target, ?_⟩
  dsimp only
  rw [hb.handlesIn_eq]
  exact hsources.recorded (.op (.construct target) target (Source.handlesIn b sources))

theorem placed_toVariable :
    Build.Placed low (fun v => ⟨v.node.place g low.size⟩) ((liftM x.toVariable : Build (Variable 1)).run b)
      ((liftM (x.place g low.size).toVariable : Build (Variable n)).run b') := by
  refine .lift ?_ (hb.recorded (.var x.ty x.handle))
  show Variable.mk ⟨g, b'.graph.next, x.ty, true⟩ = _
  rw [hb.next_eq]
  rfl

theorem placed_assign :
    Build.Placed low id ((x.assign y).run b) (((x.place g low.size).assign (y.place g low.size)).run b') := by
  rw [run_assign, run_assign]
  refine .checked hb (checkAssign_place g x y low.size) fun source => ⟨rfl, ?_⟩
  dsimp only
  rw [hb.handleIn_eq]
  exact Builder.Continues.rebound (hb.recordedIn source) x.handle (source.handleIn b)

theorem placed_setUniform (value : Value) :
    Build.Placed low id ((x.setUniform g₀ value).run b) (((x.place g low.size).setUniform g value).run b') := by
  unfold setUniform
  rw [Build.run_bind, Build.run_bind, Build.run_accept, Build.run_accept, (Operand.node x).checkOwner_alone]
  have howner : (Operand.node (x.place g low.size)).checkOwner g = .ok () := (Operand.node x).checkOwner_place
  rw [howner]
  exact Build.placed_setUniform hb x.handle value

end Node

end ShaderExpr
