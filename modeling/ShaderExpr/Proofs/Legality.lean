import Mathlib
import ShaderExpr.Proofs.Calls
import ShaderExpr.Proofs.Demand
import ShaderExpr.Proofs.Growth

/-!
# Legal graphs

A vertex is legal in a graph if the rules of its operation, accessor or conversion list it with the types that
its operands have there.  In a legal graph every vertex is legal and reads earlier vertices only, and every
rebind binds a variable to an earlier expression of its type.

`Builder.Step` is one thing that a call does to a builder, with what it has to observe; `Builder.Steps` is any
number of them.  Steps keep a builder legal (`Builder.Legal.steps`) and make its graph grow
(`Builder.Steps.grows`).
-/

namespace ShaderExpr

/-- A texture is sampled if it is filtered and fetched otherwise. -/
def TextureInfo.kind (info : TextureInfo) : TextureKind :=
  if info.filtered then .sampled else .data

namespace Vertex

def isTexture : Vertex → Bool
  | texture .. => true
  | _ => false

end Vertex

/-- A vertex is recorded that stands for a value of a type, which a texture does not. -/
def Graph.HasType (g : Graph) (h : Handle) (ty : ValueType) : Prop :=
  ∃ v, g.vertex? h = some v ∧ v.ty = ty ∧ v.isTexture = false

/-- The rules list a vertex, with the types that its operands have in a graph. -/
inductive Vertex.Legal (g : Graph) : Vertex → Prop where
  | constant (value : Value) : Legal g (.op (.constant value) value.ty [])
  | binary {op : BinaryOp} {l r : Handle} {left right ty : ValueType} (hl : g.HasType l left)
    (hr : g.HasType r right) (rule : ⟨left, .typed right, ty⟩ ∈ op.rules) : Legal g (.op (.binary op) ty [l, r])
  | oneMinus {x : Handle} {operand ty : ValueType} (hx : g.HasType x operand)
    (rule : (operand, ty) ∈ oneMinusRules) : Legal g (.op .oneMinus ty [x])
  | construct {target : ValueType} {operands : List Handle} {types : List ValueType}
    (hs : List.Forall₂ g.HasType operands types)
    (shape : target.checkArguments (types.map .typed) = .ok ()) : Legal g (.op (.construct target) target operands)
  | cast {x : Handle} {operand target : ValueType} (hx : g.HasType x operand)
    (conversion : operand.checkConversion target = .ok ()) : Legal g (.op (.cast target) target [x])
  | sample {t uv : Handle} {info : TextureInfo} (ht : g.vertex? t = some (.texture .sampled info))
    (filtered : info.filtered = true) (huv : g.HasType uv .vec2) : Legal g (.op .sample info.texel [t, uv])
  | fetch {t uv : Handle} {info : TextureInfo} (ht : g.vertex? t = some (.texture .data info))
    (filtered : info.filtered = false) (huv : g.HasType uv .vec2) : Legal g (.op .fetch info.texel [t, uv])
  | component {source : Handle} {name : String} {ty picked : ValueType} (hs : g.HasType source ty)
    (accessor : ty.checkAccess name = .ok picked) : Legal g (.component source name picked)
  | uniform (value : Value) : Legal g (.uniform value.ty value)
  | attr (ty : ValueType) (name : String) : Legal g (.attr ty name)
  | texture (info : TextureInfo) : Legal g (.texture info.kind info)
  | var {init : Handle} {ty : ValueType} (hinit : g.HasType init ty) : Legal g (.var ty init)

/-- A rebind binds a variable to an expression of its type that was recorded before it. -/
def Rebind.Legal (g : Graph) (r : Rebind) : Prop :=
  r.expr.index < r.point ∧ ∃ ty init, g.vertex? r.var = some (.var ty init) ∧ g.HasType r.expr ty

/-- Nothing illegal is recorded, and vertices read earlier ones only. -/
structure Graph.Legal (g : Graph) : Prop where
  reads_lt : ∀ {h : Handle} {v : Vertex}, g.vertex? h = some v → ∀ o ∈ v.reads, o.index < h.index
  vertex : ∀ {h : Handle} {v : Vertex}, g.vertex? h = some v → v.Legal g
  rebind : ∀ {i : Nat} {r : Rebind}, g.rebinds[i]? = some r → r.Legal g

variable {g g' : Graph} {h : Handle} {v : Vertex} {ty : ValueType}

namespace Graph.HasType

theorem index_lt (ht : g.HasType h ty) : h.index < g.size := by
  obtain ⟨v, hv, _⟩ := ht
  exact (Array.getElem?_eq_some_iff.1 hv).1

theorem mono (ht : g.HasType h ty) (hg : g.Grows g') : g'.HasType h ty := by
  obtain ⟨v, hv, hty, htex⟩ := ht
  obtain ⟨w, hw, hvw⟩ := hg.vertex hv
  refine ⟨w, hw, hvw.ty_eq.trans hty, ?_⟩
  cases hvw with
  | same => exact htex
  | reset => rfl

theorem of_next (g : Graph) (hv : v.isTexture = false) : (g.push v).HasType g.next v.ty :=
  ⟨v, g.vertex?_next v, rfl, hv⟩

end Graph.HasType

namespace Vertex.Legal

private theorem hasType_of_mem {operands : List Handle} {types : List ValueType}
    (hs : List.Forall₂ g.HasType operands types) (hh : h ∈ operands) : ∃ ty, g.HasType h ty := by
  induction hs with
  | nil => exact absurd hh nofun
  | cons hty _ ih =>
    rcases List.mem_cons.1 hh with rfl | hh
    · exact ⟨_, hty⟩
    · exact ih hh

/-- A legal vertex reads recorded vertices. -/
theorem reads_lt_size (hv : v.Legal g) : ∀ o ∈ v.reads, o.index < g.size := by
  have hpair : ∀ {a b : Handle}, a.index < g.size → b.index < g.size → ∀ o ∈ [a, b], o.index < g.size := by
    intro a b ha hb o ho
    rcases List.mem_pair.1 ho with rfl | rfl
    · exact ha
    · exact hb
  have hsingle : ∀ {a : Handle}, a.index < g.size → ∀ o ∈ [a], o.index < g.size := by
    intro a ha o ho
    rw [List.mem_singleton.1 ho]
    exact ha
  cases hv with
  | constant | uniform | attr | texture => exact nofun
  | binary hl hr => exact hpair hl.index_lt hr.index_lt
  | oneMinus hx => exact hsingle hx.index_lt
  | construct hs =>
    intro o ho
    obtain ⟨ty, hty⟩ := hasType_of_mem hs ho
    exact hty.index_lt
  | cast hx => exact hsingle hx.index_lt
  | sample ht _ huv => exact hpair (Array.getElem?_eq_some_iff.1 ht).1 huv.index_lt
  | fetch ht _ huv => exact hpair (Array.getElem?_eq_some_iff.1 ht).1 huv.index_lt
  | component hs => exact hsingle hs.index_lt
  | var hinit => exact hsingle hinit.index_lt

theorem mono (hv : v.Legal g) (hg : g.Grows g') : v.Legal g' := by
  cases hv with
  | constant value => exact .constant value
  | binary hl hr rule => exact .binary (hl.mono hg) (hr.mono hg) rule
  | oneMinus hx rule => exact .oneMinus (hx.mono hg) rule
  | construct hs shape => exact .construct (hs.imp fun _ _ ht => ht.mono hg) shape
  | cast hx conversion => exact .cast (hx.mono hg) conversion
  | sample ht filtered huv => exact .sample (hg.vertex_eq ht nofun) filtered (huv.mono hg)
  | fetch ht filtered huv => exact .fetch (hg.vertex_eq ht nofun) filtered (huv.mono hg)
  | component hs accessor => exact .component (hs.mono hg) accessor
  | uniform value => exact .uniform value
  | attr ty name => exact .attr ty name
  | texture info => exact .texture info
  | var hinit => exact .var (hinit.mono hg)

/-- What is found later in the place of a legal vertex is legal. -/
theorem becomes {w : Vertex} (hv : v.Legal g) (hvw : v.Becomes w) : w.Legal g := by
  cases hvw with
  | same => exact hv
  | reset old hty =>
    subst hty
    exact .uniform _

/-- Textures are read by sampling and fetching only, and as their first operand. -/
theorem op_of_reads_texture (hv : v.Legal g) {t : Handle} (ht : t ∈ v.reads) {kind : TextureKind}
    {info : TextureInfo} (htex : g.vertex? t = some (.texture kind info)) :
    ∃ op uv, (op = .sample ∨ op = .fetch) ∧ v = .op op info.texel [t, uv] := by
  -- operands that have a type are no textures, so only two kinds of vertices are left
  have hno : ∀ {ty}, ¬ g.HasType t ty := by
    rintro ty ⟨w, hw, _, hfalse⟩
    cases Option.some.inj (htex.symm.trans hw)
    exact absurd hfalse nofun
  have hsingle : ∀ {a : Handle} {ty}, t ∈ [a] → ¬ g.HasType a ty := by
    intro a ty ha
    rw [← List.mem_singleton.1 ha]
    exact hno
  cases hv with
  | constant | uniform | attr | texture => exact absurd ht nofun
  | binary hl hr =>
    rcases List.mem_pair.1 ht with rfl | rfl
    · exact absurd hl hno
    · exact absurd hr hno
  | oneMinus hx => exact absurd hx (hsingle ht)
  | construct hs =>
    obtain ⟨ty, hty⟩ := hasType_of_mem hs ht
    exact absurd hty hno
  | cast hx => exact absurd hx (hsingle ht)
  | @sample _ uv _ hsampled _ huv =>
    rcases List.mem_pair.1 ht with rfl | rfl
    · cases Option.some.inj (htex.symm.trans hsampled)
      exact ⟨.sample, uv, .inl rfl, rfl⟩
    · exact absurd huv hno
  | @fetch _ uv _ hdata _ huv =>
    rcases List.mem_pair.1 ht with rfl | rfl
    · cases Option.some.inj (htex.symm.trans hdata)
      exact ⟨.fetch, uv, .inr rfl, rfl⟩
    · exact absurd huv hno
  | component hs => exact absurd hs (hsingle ht)
  | var hinit => exact absurd hinit (hsingle ht)

end Vertex.Legal

theorem Rebind.Legal.mono {r : Rebind} (hr : r.Legal g) (hg : g.Grows g') : r.Legal g' := by
  obtain ⟨hlt, ty, init, hvar, hexpr⟩ := hr
  exact ⟨hlt, ty, init, hg.vertex_eq hvar nofun, hexpr.mono hg⟩

namespace Graph.Legal

theorem empty : Graph.empty.Legal :=
  ⟨fun hv => absurd hv nofun, fun hv => absurd hv nofun, fun hr => absurd hr nofun⟩

/-- A graph stays legal if its vertices stay and its rebinds stay legal. -/
private theorem of_grows (hg : g.Legal) (hgrows : g.Grows g')
    (hold : ∀ {h : Handle} {w : Vertex}, g'.vertex? h = some w → ∃ v, g.vertex? h = some v ∧ v.Becomes w)
    (hrebind : ∀ {i : Nat} {r : Rebind}, g'.rebinds[i]? = some r → r.Legal g') : g'.Legal where
  reads_lt := by
    intro h w hw
    obtain ⟨v, hv, hvw⟩ := hold hw
    -- a uniform reads nothing, whatever its value
    cases hvw with
    | same => exact hg.reads_lt hv
    | reset => exact nofun
  vertex := by
    intro h w hw
    obtain ⟨v, hv, hvw⟩ := hold hw
    exact ((hg.vertex hv).becomes hvw).mono hgrows
  rebind := hrebind

theorem push (hg : g.Legal) (hv : v.Legal g) : (g.push v).Legal := by
  have hgrows := g.grows_push v
  refine ⟨?_, ?_, fun hr => (hg.rebind hr).mono hgrows⟩
  · intro h w hw
    rcases Graph.vertex?_push_cases hw with hw | ⟨rfl, rfl⟩
    · exact hg.reads_lt hw
    · exact hv.reads_lt_size
  · intro h w hw
    rcases Graph.vertex?_push_cases hw with hw | ⟨rfl, rfl⟩
    · exact (hg.vertex hw).mono hgrows
    · exact hv.mono hgrows

theorem rebind_var (hg : g.Legal) {var expr init : Handle} (hvar : g.vertex? var = some (.var ty init))
    (hexpr : g.HasType expr ty) : (g.rebind var expr).Legal := by
  refine hg.of_grows (g.grows_rebind var expr) (fun hw => ⟨_, hw, .same _⟩) ?_
  intro i r hr
  rw [Graph.rebinds_rebind, Array.getElem?_push] at hr
  split at hr
  · cases Option.some.inj hr
    exact ⟨hexpr.index_lt, ty, init, hvar, hexpr⟩
  · exact (hg.rebind hr).mono (g.grows_rebind var expr)

theorem label (hg : g.Legal) (k : Handle) (name : String) : (g.label k name).Legal :=
  hg.of_grows (g.grows_label k name) (fun hw => ⟨_, hw, .same _⟩) fun hr =>
    (hg.rebind hr).mono (g.grows_label k name)

theorem setUniform (hg : g.Legal) {value : Value} (hset : g.setUniform h value = .ok g') : g'.Legal := by
  have hgrows := Graph.grows_setUniform hset
  obtain ⟨old, hold, rfl⟩ := Graph.setUniform_ok hset
  refine hg.of_grows hgrows ?_ fun hr => (hg.rebind hr).mono hgrows
  intro k w hw
  by_cases hk : h = k
  · subst hk
    rw [Graph.vertex?_setValue_self _ _ hold] at hw
    cases Option.some.inj hw
    exact ⟨_, hold, .reset old rfl⟩
  · rw [Graph.vertex?_setValue_ne _ _ hk] at hw
    exact ⟨w, hw, .same w⟩

end Graph.Legal

/-! ### Steps of a builder -/

/-- The composites that a composite is made from. -/
def Composite.parts : Composite → List Composite
  | uv | zIndex | viewMatrix | worldMatrix => []
  | modelView => [viewMatrix, worldMatrix]
  | legacyUv => [uv]
  | normZ => [zIndex]
  | depthBias => [normZ]

namespace Builder

/-- A builder with a legal graph, in which every composite that is kept has its type, and its parts are kept
too. -/
structure Legal (b : Builder) : Prop where
  graph : b.graph.Legal
  composite : ∀ {c : Composite} {h : Handle}, b.composites c = some h → b.graph.HasType h c.ty
  parts : ∀ {c : Composite}, (b.composites c).isSome → ∀ part ∈ c.parts, (b.composites part).isSome

/-- One thing that a call does to a builder. -/
inductive Step (b : Builder) : Builder → Prop where
  | note (notice : Notice) : Step b (b.noted notice)
  | record {v : Vertex} (hv : v.Legal b.graph) : Step b (b.recorded v)
  | rebind {var expr init : Handle} {ty : ValueType} (hvar : b.graph.vertex? var = some (.var ty init))
    (hexpr : b.graph.HasType expr ty) : Step b (b.rebound var expr)
  | label (h : Handle) (name : String) : Step b (b.labelled h name)
  | share {c : Composite} {h : Handle} (hh : b.graph.HasType h c.ty)
    (hparts : ∀ part ∈ c.parts, (b.composites part).isSome) : Step b (b.shared c h)
  | setUniform {h : Handle} {value : Value} {g : Graph} (hset : b.graph.setUniform h value = .ok g) :
    Step b { b with graph := g }

/-- Any number of steps. -/
def Steps : Builder → Builder → Prop :=
  Relation.ReflTransGen Step

variable {b b' : Builder}

theorem composites_shared (b : Builder) (c : Composite) (h : Handle) : (b.shared c h).composites c = some h :=
  if_pos rfl

theorem composites_shared_ne {c d : Composite} (h : Handle) (hd : d ≠ c) :
    (b.shared c h).composites d = b.composites d :=
  if_neg hd

theorem Step.grows (h : b.Step b') : b.graph.Grows b'.graph := by
  cases h with
  | note | share => exact .refl _
  | @record v hv => exact b.graph.grows_push v
  | @rebind var expr => exact b.graph.grows_rebind var expr
  | label h name => exact b.graph.grows_label h name
  | setUniform hset => exact Graph.grows_setUniform hset

/-- A step changes what is kept of one composite at most. -/
theorem Step.isSome_composites (h : b.Step b') {c : Composite} (hc : (b.composites c).isSome) :
    (b'.composites c).isSome := by
  cases h with
  | @share d k =>
    by_cases hcd : c = d
    · rw [hcd, composites_shared]
      rfl
    · rw [composites_shared_ne k hcd]
      exact hc
  | _ => exact hc

namespace Steps

theorem refl (b : Builder) : b.Steps b :=
  Relation.ReflTransGen.refl

theorem single (h : b.Step b') : b.Steps b' :=
  Relation.ReflTransGen.single h

theorem trans {b'' : Builder} (h : b.Steps b') (h' : b'.Steps b'') : b.Steps b'' :=
  Relation.ReflTransGen.trans h h'

theorem tail {b'' : Builder} (h : b.Steps b') (h' : b'.Step b'') : b.Steps b'' :=
  Relation.ReflTransGen.tail h h'

/-- Steps make the graph grow. -/
theorem grows (h : b.Steps b') : b.graph.Grows b'.graph := by
  induction h with
  | refl => exact .refl _
  | tail _ hstep ih => exact ih.trans hstep.grows

/-- A composite that is kept stays. -/
theorem isSome_composites (h : b.Steps b') {c : Composite} (hc : (b.composites c).isSome) :
    (b'.composites c).isSome := by
  induction h with
  | refl => exact hc
  | tail _ hstep ih => exact hstep.isSome_composites ih

end Steps

namespace Legal

theorem ofConfig (config : Config) : (Builder.ofConfig config).Legal :=
  ⟨.empty, fun hc => absurd hc nofun, fun hc => absurd hc nofun⟩

theorem step (hb : b.Legal) (h : b.Step b') : b'.Legal := by
  refine ⟨?_, ?_, ?_⟩
  · cases h with
    | note | share => exact hb.graph
    | record hv => exact hb.graph.push hv
    | rebind hvar hexpr => exact hb.graph.rebind_var hvar hexpr
    | label h name => exact hb.graph.label h name
    | setUniform hset => exact hb.graph.setUniform hset
  · intro c k hc
    have hgrows := h.grows
    cases h with
    | @share d h hh =>
      -- the composite that is kept now, or one that was kept before
      by_cases hcd : c = d
      · subst hcd
        rw [composites_shared] at hc
        cases Option.some.inj hc
        exact hh
      · rw [composites_shared_ne h hcd] at hc
        exact hb.composite hc
    | _ => exact (hb.composite hc).mono hgrows
  · intro c hc part hpart
    have hkept := @Step.isSome_composites _ _ h
    cases h with
    | @share d h _ hparts =>
      by_cases hcd : c = d
      · subst hcd
        exact hkept (hparts part hpart)
      · rw [composites_shared_ne h hcd] at hc
        exact hkept (hb.parts hc part hpart)
    | _ => exact hb.parts hc part hpart

/-- Steps keep a builder legal. -/
theorem steps (hb : b.Legal) (h : b.Steps b') : b'.Legal := by
  induction h with
  | refl => exact hb
  | tail _ hstep ih => exact ih.step hstep

end Legal

end Builder

end ShaderExpr
