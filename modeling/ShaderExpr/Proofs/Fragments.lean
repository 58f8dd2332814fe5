import ShaderExpr.Proofs.Placement
import ShaderExpr.Proofs.Runs

/-!
# Fragments of a program

A fragment is a sequence of calls on nodes that it was itself handed out, which it names by number: the first node
that it was handed out is `0`.  It declares uniforms and attributes, but no textures, and builds no composites.
`Session.runFragment` runs it on one graph of a session; a step that names a node which was not handed out is left
out.

* Where a fragment runs, it records what it records on a graph of its own, after what is there already
  (`Fragment.Progress.Placed`).
* What it was handed out is backed, on a graph of its own (`Fragment.Progress.Sound`), so that evaluating it gives
  the same in both places.
* Its steps have the same outcomes and its nodes the same values on any graph, up to the shift of their handles
  (`Session.Reachable.runFragment_eq_alone`).
-/

namespace ShaderExpr

variable {n : Nat}

namespace Fragment

/-- A right operand, or an argument of a constructor. -/
inductive Argument (ν : Type) where
  | node (x : ν)
  | literal (x : Literal)

/-- A call on nodes that are given by `ν`. -/
inductive Step (ν : Type) where
  | uniform (value : Value)
  | constant (value : Value)
  | attr (ty : ValueType) (name : String)
  | binary (op : BinaryOp) (x : ν) (y : Argument ν)
  | oneMinus (x : ν)
  | access (x : ν) (name : String)
  | cast (x : ν) (target : ValueType)
  | construct (target : ValueType) (args : List (Argument ν))
  | toVariable (x : ν)
  | assign (x : ν) (y : Argument ν)
  | label (x : ν) (name : String)
  | labelVariable (x : ν) (name : String)
  | setUniform (x : ν) (value : Value)

variable {ν μ ω : Type}

namespace Argument

def map (f : ν → μ) : Argument ν → Argument μ
  | node x => .node (f x)
  | literal x => .literal x

/-- An argument with its name looked up. -/
def resolve (look : ν → Option μ) : Argument ν → Option (Argument μ)
  | node x => (look x).map .node
  | literal x => some (.literal x)

def operand : Argument (Node n) → Operand n
  | node x => .node x
  | literal x => .literal x

end Argument

namespace Step

def map (f : ν → μ) : Step ν → Step μ
  | uniform value => .uniform value
  | constant value => .constant value
  | attr ty name => .attr ty name
  | binary op x y => .binary op (f x) (y.map f)
  | oneMinus x => .oneMinus (f x)
  | access x name => .access (f x) name
  | cast x target => .cast (f x) target
  | construct target args => .construct target (args.map (Argument.map f))
  | toVariable x => .toVariable (f x)
  | assign x y => .assign (f x) (y.map f)
  | label x name => .label (f x) name
  | labelVariable x name => .labelVariable (f x) name
  | setUniform x value => .setUniform (f x) value

/-- A step with its names looked up, if all of them are found. -/
def resolve (look : ν → Option μ) : Step ν → Option (Step μ)
  | uniform value => some (.uniform value)
  | constant value => some (.constant value)
  | attr ty name => some (.attr ty name)
  | binary op x y => (look x).bind fun x => (y.resolve look).map (.binary op x)
  | oneMinus x => (look x).map .oneMinus
  | access x name => (look x).map fun x => .access x name
  | cast x target => (look x).map fun x => .cast x target
  | construct target args => (args.mapM (Argument.resolve look)).map (.construct target)
  | toVariable x => (look x).map .toVariable
  | assign x y => (look x).bind fun x => (y.resolve look).map (.assign x)
  | label x name => (look x).map fun x => .label x name
  | labelVariable x name => (look x).map fun x => .labelVariable x name
  | setUniform x value => (look x).map fun x => .setUniform x value

/-- The call that a step makes on a graph. -/
def call (g : Fin n) : Step (Node n) → Call n
  | uniform value => .uniform g value
  | constant value => .constant g value
  | attr ty name => .attr g ty name
  | binary op x y => .binary op x y.operand
  | oneMinus x => .oneMinus x
  | access x name => .access x name
  | cast x target => .cast x target
  | construct target args => .construct g target (args.map Argument.operand)
  | toVariable x => .toVariable x
  | assign x y => .assign x y.operand
  | label x name => .label x name
  | labelVariable x name => .labelVariable ⟨x⟩ name
  | setUniform x value => .setUniform g x value

end Step

/-- How far a fragment has run: the session, the nodes that it was handed out, oldest first, and the outcome of each
step that was not left out. -/
structure Progress (n : Nat) where
  session : Session n
  made : List (Node n)
  outcomes : List (Option (Except Error (Reply n)))

def Progress.step (g : Fin n) (p : Progress n) (step : Step Nat) : Progress n :=
  match step.resolve fun i => p.made[i]? with
  | some step =>
    let outcome := p.session.perform (step.call g)
    ⟨outcome.2, p.made ++ outcome.1.toOption.toList.flatMap Reply.nodes, p.outcomes ++ [some outcome.1]⟩
  | none => { p with outcomes := p.outcomes ++ [none] }

end Fragment

/-- Run a fragment on a graph of a session. -/
def Session.runFragment (s : Session n) (g : Fin n) (steps : List (Fragment.Step Nat)) : Fragment.Progress n :=
  steps.foldl (Fragment.Progress.step g) ⟨s, [], []⟩

namespace Fragment

variable {ν μ ω : Type}

theorem Argument.resolve_map (look : ν → Option μ) (f : μ → ω) (y : Argument ν) :
    y.resolve (fun x => (look x).map f) = (y.resolve look).map (Argument.map f) := by
  cases y with
  | node x =>
    show ((look x).map f).map Argument.node = ((look x).map Argument.node).map (Argument.map f)
    rw [Option.map_map, Option.map_map]
    rfl
  | literal x => rfl

/-- To rename the nodes that are found is to rename the nodes of the step. -/
theorem Step.resolve_map (look : ν → Option μ) (f : μ → ω) (step : Step ν) :
    step.resolve (fun x => (look x).map f) = (step.resolve look).map (Step.map f) := by
  cases step with
  | uniform | constant | attr => rfl
  | binary op x y | assign x y =>
    dsimp only [resolve]
    rw [y.resolve_map]
    cases look x with
    | none => rfl
    | some x => cases y.resolve look <;> rfl
  | construct target args =>
    dsimp only [resolve]
    rw [funext fun y => Argument.resolve_map look f y, mapM_map_option, Option.map_map, Option.map_map]
    rfl
  | oneMinus x | access x | cast x | toVariable x | label x | labelVariable x | setUniform x =>
    dsimp only [resolve]
    cases look x <;> rfl

/-- A step is given nodes that were found. -/
theorem Step.exists_of_mem_nodes {look : ν → Option (Node n)} {step : Step ν} {found : Step (Node n)} {g : Fin n}
    (hfound : step.resolve look = some found) {x : Node n}
    (hx : x ∈ (found.call g).nodes ∨ ⟨x⟩ ∈ (found.call g).vars) : ∃ i, look i = some x := by
  have hargument : ∀ {y : Argument ν} {z : Argument (Node n)}, y.resolve look = some z →
      x ∈ z.operand.nodes → ∃ i, look i = some x := by
    intro y z hz hx
    cases y with
    | node i =>
      obtain ⟨x', hx', rfl⟩ := Option.map_eq_some_iff.1 hz
      rw [List.mem_singleton.1 hx]
      exact ⟨i, hx'⟩
    | literal y =>
      cases Option.some.inj hz
      exact absurd hx List.not_mem_nil
  cases step with
  | uniform | constant | attr =>
    cases Option.some.inj hfound
    exact absurd hx (by simp [call, Call.nodes, Call.vars])
  | binary op i y | assign i y =>
    obtain ⟨x', hx', hfound⟩ := Option.bind_eq_some_iff.1 hfound
    obtain ⟨z, hz, rfl⟩ := Option.map_eq_some_iff.1 hfound
    rcases hx with hx | hx
    · rcases List.mem_cons.1 hx with rfl | hx
      · exact ⟨i, hx'⟩
      · exact hargument hz hx
    · exact absurd hx List.not_mem_nil
  | construct target args =>
    obtain ⟨args', hargs', rfl⟩ := Option.map_eq_some_iff.1 hfound
    rcases hx with hx | hx
    · obtain ⟨y, hy, hx⟩ := List.mem_flatMap.1 hx
      obtain ⟨z, hz, rfl⟩ := List.mem_map.1 hy
      obtain ⟨y, _, hy⟩ := exists_of_mem_mapM hargs' hz
      exact hargument hy hx
    · exact absurd hx List.not_mem_nil
  | oneMinus i | access i | cast i | toVariable i | label i | labelVariable i | setUniform i =>
    obtain ⟨x', hx', rfl⟩ := Option.map_eq_some_iff.1 hfound
    obtain rfl : x = x' := by simpa [call, Call.nodes, Call.vars] using hx
    exact ⟨i, hx'⟩

/-- Every graph is legal, and the nodes that were handed out are backed. -/
structure Progress.Sound (p : Progress n) : Prop where
  legal : ∀ g, (p.session.builder g).Legal
  backed : ∀ x ∈ p.made, x.Backed (p.session.builder x.graph).graph

/-- Nodes as replies: a node may also be given where a variable is. -/
def handed (made : List (Node n)) : List (Reply n) :=
  made.map .node ++ made.map fun x => .variable ⟨x⟩

theorem Progress.Sound.invariant {p : Progress n} (hp : p.Sound) : p.session.Invariant (handed p.made) where
  legal := hp.legal
  backed := by
    intro r hr
    rcases List.mem_append.1 hr with hr | hr
    · obtain ⟨x, hx, rfl⟩ := List.mem_map.1 hr
      exact hp.backed x hx
    · obtain ⟨x, hx, rfl⟩ := List.mem_map.1 hr
      exact hp.backed x hx

/-- A step is given nodes that were handed out. -/
theorem Step.givenFrom {made : List (Node n)} {step : Step Nat} {found : Step (Node n)} (g : Fin n)
    (hfound : step.resolve (fun i => made[i]?) = some found) : (found.call g).GivenFrom (handed made) where
  typed := by cases found <;> rfl
  nodes := by
    intro x hx
    obtain ⟨i, hi⟩ := exists_of_mem_nodes hfound (.inl hx)
    have hmade := List.mem_map_of_mem (f := Reply.node) (List.mem_of_getElem? hi)
    exact ⟨.node x, List.mem_append_left _ hmade, List.mem_singleton_self x⟩
  vars := by
    intro v hv
    obtain ⟨i, hi⟩ := exists_of_mem_nodes hfound (.inr hv)
    exact List.mem_append_right _ (List.mem_map_of_mem (List.mem_of_getElem? hi))
  textures := by
    intro t ht
    cases found <;> exact absurd ht List.not_mem_nil

theorem Progress.Sound.step {p : Progress n} (hp : p.Sound) (g : Fin n) (step : Step Nat) :
    (p.step g step).Sound := by
  unfold Progress.step
  cases hfound : step.resolve fun i => p.made[i]? with
  | none => exact ⟨hp.legal, hp.backed⟩
  | some found =>
    have hmoves := Session.moves_perform hp.invariant (Step.givenFrom g hfound)
    refine ⟨fun g' => (hp.legal g').steps (hmoves.steps g'), ?_⟩
    intro x hx
    rcases List.mem_append.1 hx with hx | hx
    · exact (hp.backed x hx).mono (hmoves.steps x.graph).grows
    · obtain ⟨r, hr, hx⟩ := List.mem_flatMap.1 hx
      cases hreply : (p.session.perform (found.call g)).1 with
      | ok reply =>
        rw [hreply] at hr
        rw [List.mem_singleton.1 hr] at hx
        exact (hmoves.reply reply hreply).nodes x hx
      | error e =>
        rw [hreply] at hr
        exact absurd hr List.not_mem_nil

theorem Progress.Sound.foldl {p : Progress n} (hp : p.Sound) (g : Fin n) (steps : List (Step Nat)) :
    (steps.foldl (Progress.step g) p).Sound := by
  induction steps generalizing p with
  | nil => exact hp
  | cons step steps ih => exact ih (hp.step g step)

/-! ### Runs on two graphs -/

theorem Argument.operand_map (g : Fin n) (count : Nat) (y : Argument (Node 1)) :
    (y.map (Node.place g count)).operand = y.operand.place g count := by
  cases y <;> rfl

/-- A step is made on a graph after others as on a graph of its own. -/
theorem Step.placed {low : Graph} {alone : Session 1} {placed : Session n} {g : Fin n}
    (hb : (placed.builder g).Continues low (alone.builder 0)) (step : Step (Node 1)) :
    Build.Placed low (Reply.place g low.size)
      ((alone.perform (step.call 0)).1, (alone.perform (step.call 0)).2.builder 0)
      ((placed.perform ((step.map (Node.place g low.size)).call g)).1,
        (placed.perform ((step.map (Node.place g low.size)).call g)).2.builder g) := by
  have hon : ∀ (g₀ : Fin 1) {call : Build (Reply 1)} {call' : Build (Reply n)},
      Build.Placed low (Reply.place g low.size) (call.run (alone.builder 0)) (call'.run (placed.builder g)) →
        Build.Placed low (Reply.place g low.size) ((alone.on g₀ call).1, (alone.on g₀ call).2.builder 0)
          ((placed.on g call').1, (placed.on g call').2.builder g) := by
    intro g₀ call call' h
    obtain rfl : g₀ = 0 := Subsingleton.elim _ _
    rw [Session.builder_on_self, Session.builder_on_self]
    exact h
  cases step with
  | uniform value =>
    exact hon 0 (.map (fun _ => rfl) (.lift (hb.nextIn_eq g 0 _) (hb.recorded (.uniform value.ty value))))
  | constant value =>
    exact hon 0 (.map (fun _ => rfl) (.lift (hb.nextIn_eq g 0 _) (hb.recorded (.constant value))))
  | attr ty name => exact hon 0 (.map (fun _ => rfl) (.lift (hb.nextIn_eq g 0 _) (hb.recorded (.attr ty name))))
  | binary op x y =>
    have hbinary := Node.placed_binary hb g x y.operand op
    rw [← y.operand_map] at hbinary
    exact hon x.graph (.map (fun _ => rfl) hbinary)
  | oneMinus x =>
    exact hon x.graph (.map (fun _ => rfl) (Node.placed_unary hb g _ (Node.run_oneMinus _ x) (Node.run_oneMinus _ _)))
  | access x name =>
    exact hon x.graph (.map (fun _ => rfl)
      (Node.placed_unary hb g _ (Node.run_access _ x name) (Node.run_access _ _ name)))
  | cast x target =>
    exact hon x.graph (.map (fun _ => rfl)
      (Node.placed_unary hb g _ (Node.run_cast _ x target) (Node.run_cast _ _ target)))
  | construct target args =>
    have hargs : (args.map Argument.operand).map (Operand.place g low.size) =
        (args.map (Argument.map (Node.place g low.size))).map Argument.operand := by
      rw [List.map_map, List.map_map]
      exact List.map_congr_left fun y _ => (y.operand_map g low.size).symm
    have hconstruct := Node.placed_construct hb g 0 target (args.map Argument.operand)
    rw [hargs] at hconstruct
    exact hon 0 (.map (fun _ => rfl) hconstruct)
  | toVariable x => exact hon x.graph (.map (fun _ => rfl) (Node.placed_toVariable hb g x))
  | assign x y =>
    have hassign := Node.placed_assign hb g x y.operand
    rw [← y.operand_map] at hassign
    exact hon x.graph (.map (fun _ => rfl) hassign)
  | label x name | labelVariable x name =>
    exact hon x.graph (.map (fun _ => rfl) (.lift rfl (hb.labelled x.handle name)))
  | setUniform x value => exact hon 0 (.map (fun _ => rfl) (Node.placed_setUniform hb g 0 x value))

/-- A fragment has run in the same way on a graph of its own and, after `low`, on a graph of a session. -/
structure Progress.Placed (low : Graph) (g : Fin n) (alone : Progress 1) (placed : Progress n) : Prop where
  builder : (placed.session.builder g).Continues low (alone.session.builder 0)
  made : placed.made = alone.made.map (Node.place g low.size)
  outcomes : placed.outcomes = alone.outcomes.map (Option.map fun outcome =>
    (outcome.map (Reply.place g low.size)).mapError (Error.shift low.size))

namespace Progress.Placed

variable {low : Graph} {g : Fin n} {alone : Progress 1} {placed : Progress n}

theorem step (h : Progress.Placed low g alone placed) (step : Step Nat) :
    Progress.Placed low g (alone.step 0 step) (placed.step g step) := by
  have hlook : (fun i : Nat => placed.made[i]?) = fun i => (alone.made[i]?).map (Node.place g low.size) := by
    funext i
    rw [h.made, List.getElem?_map]
  unfold Progress.step
  rw [hlook, step.resolve_map]
  cases step.resolve fun i => alone.made[i]? with
  | none =>
    refine ⟨h.builder, h.made, ?_⟩
    rw [h.outcomes, List.map_append]
    rfl
  | some found =>
    obtain ⟨hanswer, hbuilder⟩ := Step.placed h.builder found
    dsimp only [Option.map_some] at hanswer ⊢
    refine ⟨hbuilder, ?_, ?_⟩
    · dsimp only
      rw [hanswer, h.made, List.map_append, List.append_right_inj]
      cases (alone.session.perform (found.call 0)).1 with
      | ok r => simpa [Except.toOption, Except.map, Except.mapError] using r.nodes_place g low.size
      | error e => rfl
    · rw [hanswer, h.outcomes, List.map_append]
      rfl

theorem foldl (h : Progress.Placed low g alone placed) (steps : List (Step Nat)) :
    Progress.Placed low g (steps.foldl (Progress.step 0) alone) (steps.foldl (Progress.step g) placed) := by
  induction steps generalizing alone placed with
  | nil => exact h
  | cons step steps ih => exact ih (h.step step)

/-- The nodes of a fragment have the same values in both places. -/
theorem evaluate_eq (h : Progress.Placed low g alone placed) (hsound : alone.Sound) (hlow : low.BindsOwn)
    {x : Node 1} (hx : x ∈ alone.made) (b : Bindings) :
    (placed.session.perform (.evaluate g (x.place g low.size) b)).1 =
      (alone.session.perform (.evaluate 0 x b)).1.map (Reply.place g low.size) := by
  have hgraph : x.graph = 0 := Subsingleton.elim _ _
  have hlegal := (hsound.legal 0).graph
  have hbacked := hsound.backed x hx
  have hright := alone.session.perform_evaluate x b
  have hleft := placed.session.perform_evaluate (x.place g low.size) b
  have hvalue := hlegal.evaluate_append hlow b (hgraph ▸ hbacked.hasType.index_lt)
  rw [hgraph] at hright
  rw [Node.graph_place, h.builder] at hleft
  rw [hleft, hright, ← hvalue]
  show (Graph.evaluate _ b (x.handle.shift low.size)).map Reply.value = _
  cases Graph.evaluate _ b (x.handle.shift low.size) <;> rfl

end Progress.Placed

end Fragment

namespace Session

variable {s : Session n} {held : List (Reply n)}

/-- What a fragment does and means is the same on a graph of its own and on any graph of a session that typed calls
lead to, whatever that graph holds.  Its nodes have the same types and roles, and their handles are shifted by the
number of vertices that were there before; its steps are accepted, or rejected with the same errors; and in the end
its nodes have the same values. -/
theorem Reachable.runFragment_eq_alone (hs : s.Reachable held) (g : Fin n) (config : Config)
    (steps : List (Fragment.Step Nat)) :
    let alone := (ofConfigs (Vector.replicate 1 config)).runFragment 0 steps
    let placed := s.runFragment g steps
    let count := (s.builder g).graph.size
    placed.made = alone.made.map (Node.place g count) ∧
      (placed.outcomes = alone.outcomes.map (Option.map fun outcome =>
        (outcome.map (Reply.place g count)).mapError (Error.shift count))) ∧
      ∀ x ∈ alone.made, ∀ b,
        (placed.session.perform (.evaluate g (x.place g count) b)).1 =
          (alone.session.perform (.evaluate 0 x b)).1.map (Reply.place g count) := by
  intro alone placed count
  have hstart : Fragment.Progress.Placed (s.builder g).graph g ⟨ofConfigs (Vector.replicate 1 config), [], []⟩
      ⟨s, [], []⟩ := by
    refine ⟨?_, rfl, rfl⟩
    rw [builder_ofConfigs]
    exact (Graph.append_empty _).symm
  have hplaced := hstart.foldl steps
  have hsound : Fragment.Progress.Sound ⟨ofConfigs (Vector.replicate 1 config), [], []⟩ :=
    ⟨(Reachable.start _).invariant.legal, nofun⟩
  refine ⟨hplaced.made, hplaced.outcomes, ?_⟩
  intro x hx b
  exact hplaced.evaluate_eq (hsound.foldl 0 steps) (hs.invariant.legal g).graph.bindsOwn hx b

private theorem ofConfigs_one (config : Config) :
    ofConfigs (Vector.replicate 1 config) = ⟨#v[Builder.ofConfig config], 1⟩ := by
  unfold ofConfigs
  rw [Vector.map_replicate]
  rfl

/-- A graph with one attribute. -/
def scaled : Session 1 :=
  ((ofConfigs (Vector.replicate 1 .standard)).perform (.attr 0 .float "scale")).2

/-- A variable is bound to another constant and read; then a constant is taken for a uniform. -/
def rebinding : List (Fragment.Step Nat) :=
  [.uniform (.ofFloat 1.0), .toVariable 0, .constant (.ofFloat 2.0), .assign 1 (.node 3), .oneMinus 1,
    .setUniform 3 (.ofFloat 0.0)]

/-- After an attribute, the handles are shifted by one, also that of the error. -/
theorem runFragment_eq_alone_scaled :
    (scaled.runFragment 0 rebinding).outcomes[5]? = some (some (.error (.wrongHandle ⟨3⟩ .uniform))) ∧
      ∀ b, ((scaled.runFragment 0 rebinding).session.perform (.evaluate 0 ⟨0, ⟨4⟩, .float, false⟩ b)).1 =
        (((ofConfigs (Vector.replicate 1 .standard)).runFragment 0 rebinding).session.perform
          (.evaluate 0 ⟨0, ⟨3⟩, .float, false⟩ b)).1.map (Reply.place 0 1) := by
  have hscaled := (Reachable.start (Vector.replicate 1 .standard)).call (.attr 0 .float "scale")
    (.of_nil rfl rfl rfl rfl)
  have hsize : (scaled.builder 0).graph.size = 1 := by
    unfold scaled
    rw [ofConfigs_one]
    rfl
  have hmade : ((ofConfigs (Vector.replicate 1 .standard)).runFragment 0 rebinding).made[4]? =
      some ⟨0, ⟨3⟩, .float, false⟩ := by
    rw [ofConfigs_one]
    rfl
  have houtcome : ((ofConfigs (Vector.replicate 1 .standard)).runFragment 0 rebinding).outcomes[5]? =
      some (some (.error (.wrongHandle ⟨2⟩ .uniform))) := by
    rw [ofConfigs_one]
    rfl
  have hfragment := Reachable.runFragment_eq_alone (s := scaled) hscaled 0 .standard rebinding
  dsimp only at hfragment
  rw [hsize] at hfragment
  obtain ⟨_, houtcomes, hvalues⟩ := hfragment
  have hvalue := hvalues _ (List.mem_of_getElem? hmade)
  rw [houtcomes, List.getElem?_map, houtcome]
  exact ⟨rfl, hvalue⟩

end Session

end ShaderExpr
