import ShaderExpr.Bisection
import ShaderExpr.Error

/-!
# Recorded graphs

A graph is the record of what was requested, in order: the vertices, the rebinds of variables with the
number of vertices before each, and the labels.  Vertices are only ever appended; the one change in
place is the value of a uniform.

* `Graph.visibleFrom h` is the number of rebinds made before vertex `h` was recorded, found by
  bisection: `Graph.lt_visibleFrom_iff`;
* `Graph.findLabel?` is the least handle that has a label now.
-/

namespace ShaderExpr

/-- A variable bound to another expression when `point` vertices had been recorded. -/
structure Rebind where
  var : Handle
  expr : Handle
  point : Nat
  deriving DecidableEq, Repr

/-- The record of a graph.  Rebinds are in order, and none is later than the last vertex. -/
structure Graph where
  vertices : Array Vertex
  rebinds : Array Rebind
  /-- The label requests, newest first. -/
  labels : List (Handle × String)
  point_le : ∀ (i : Nat) (r : Rebind), rebinds[i]? = some r → r.point ≤ vertices.size
  point_mono : ∀ (i j : Nat) (r s : Rebind), i ≤ j → rebinds[i]? = some r → rebinds[j]? = some s →
    r.point ≤ s.point

namespace Graph

def empty : Graph where
  vertices := #[]
  rebinds := #[]
  labels := []
  point_le := by simp
  point_mono := by simp

def size (g : Graph) : Nat :=
  g.vertices.size

def vertex? (g : Graph) (h : Handle) : Option Vertex :=
  g.vertices[h.index]?

def next (g : Graph) : Handle :=
  ⟨g.size⟩

/-- Append a vertex; its handle is `g.next`. -/
def push (g : Graph) (v : Vertex) : Graph where
  vertices := g.vertices.push v
  rebinds := g.rebinds
  labels := g.labels
  point_le := by
    intro i r h
    rw [Array.size_push]
    exact Nat.le_succ_of_le (g.point_le i r h)
  point_mono := g.point_mono

def rebind (g : Graph) (var expr : Handle) : Graph where
  vertices := g.vertices
  rebinds := g.rebinds.push ⟨var, expr, g.size⟩
  labels := g.labels
  point_le := by
    intro i r h
    rw [Array.getElem?_push] at h
    split at h
    · cases Option.some.inj h
      exact Nat.le_refl _
    · exact g.point_le i r h
  point_mono := by
    intro i j r s hij hi hj
    rw [Array.getElem?_push] at hi hj
    split at hj
    · cases Option.some.inj hj
      split at hi
      · cases Option.some.inj hi
        exact Nat.le_refl _
      · exact g.point_le i r hi
    · split at hi
      · have hlt := (Array.getElem?_eq_some_iff.1 hj).1
        omega
      · exact g.point_mono i j r s hij hi hj

/-- Name a vertex, or a handle that is not recorded yet. -/
def label (g : Graph) (h : Handle) (name : String) : Graph :=
  { g with labels := (h, name) :: g.labels }

def labelOf? (g : Graph) (h : Handle) : Option String :=
  g.labels.lookup h

/-- The least handle that has a name now. -/
def findLabel? (g : Graph) (name : String) : Option Handle :=
  ((g.labels.map fun entry => entry.1.index).filter fun i => g.labelOf? ⟨i⟩ = some name).min?.map Handle.mk

/-- Put a value in the place of that of a uniform, which keeps its type. -/
def setValue (g : Graph) (h : Handle) (ty : ValueType) (value : Value) : Graph where
  vertices := g.vertices.setIfInBounds h.index (.uniform ty value)
  rebinds := g.rebinds
  labels := g.labels
  point_le := by
    intro i r hr
    rw [Array.size_setIfInBounds]
    exact g.point_le i r hr
  point_mono := g.point_mono

/-- Change the value of a uniform to another of its type. -/
def setUniform (g : Graph) (h : Handle) (value : Value) : Except Error Graph :=
  match g.vertex? h with
  | some (.uniform ty _) =>
    if ty = value.ty then .ok (g.setValue h ty value)
    else .error (.typeMismatch .assign [.typed ty, .typed value.ty])
  | _ => .error (.wrongHandle h .uniform)

/-- Whether the rebind of an index was made before vertex `h` was recorded. -/
def rebindPrecedes (g : Graph) (h : Handle) (i : Nat) : Bool :=
  match g.rebinds[i]? with
  | some r => r.point ≤ h.index
  | none => false

/-- Number of rebinds made before vertex `h` was recorded. -/
def visibleFrom (g : Graph) (h : Handle) : Nat :=
  firstFailure (g.rebindPrecedes h) g.rebinds.size

private theorem rebindPrecedes_segment (g : Graph) (h : Handle) (i j : Nat) (hij : i ≤ j)
    (hj : j < g.rebinds.size) (hp : g.rebindPrecedes h j = true) : g.rebindPrecedes h i = true := by
  have hi : i < g.rebinds.size := Nat.lt_of_le_of_lt hij hj
  unfold rebindPrecedes at hp ⊢
  rw [Array.getElem?_eq_getElem hj] at hp
  rw [Array.getElem?_eq_getElem hi]
  have hmono := g.point_mono i j _ _ hij (Array.getElem?_eq_getElem hi) (Array.getElem?_eq_getElem hj)
  simp only [decide_eq_true_eq] at hp ⊢
  exact Nat.le_trans hmono hp

/-- The rebinds visible from a vertex are those made when no more than the vertices before it were
recorded. -/
theorem lt_visibleFrom_iff {g : Graph} {h : Handle} {i : Nat} {r : Rebind} (hr : g.rebinds[i]? = some r) :
    i < g.visibleFrom h ↔ r.point ≤ h.index := by
  have hi := (Array.getElem?_eq_some_iff.1 hr).1
  unfold visibleFrom
  rw [lt_firstFailure_iff (g.rebindPrecedes_segment h) hi, rebindPrecedes, hr]
  exact decide_eq_true_iff

theorem visibleFrom_le (g : Graph) (h : Handle) : g.visibleFrom h ≤ g.rebinds.size :=
  firstFailure_le (g.rebindPrecedes_segment h)

/-- Later vertices see at least as many rebinds. -/
theorem visibleFrom_mono {g : Graph} {a b : Handle} (hab : a.index ≤ b.index) :
    g.visibleFrom a ≤ g.visibleFrom b := by
  rcases Nat.lt_or_ge (g.visibleFrom b) (g.visibleFrom a) with hlt | hge
  · have hi : g.visibleFrom b < g.rebinds.size := Nat.lt_of_lt_of_le hlt (g.visibleFrom_le a)
    have hr := Array.getElem?_eq_getElem hi
    have hp := (lt_visibleFrom_iff hr).1 hlt
    exact absurd ((lt_visibleFrom_iff hr).2 (Nat.le_trans hp hab)) (Nat.lt_irrefl _)
  · exact hge

/-- A rebind is not visible from the vertices recorded before it. -/
theorem visibleFrom_le_of_lt_point {g : Graph} {e : Handle} {i : Nat} {r : Rebind} (hr : g.rebinds[i]? = some r)
    (he : e.index < r.point) : g.visibleFrom e ≤ i := by
  rcases Nat.lt_or_ge i (g.visibleFrom e) with hlt | hge
  · have := (lt_visibleFrom_iff hr).1 hlt
    omega
  · exact hge

end Graph

end ShaderExpr
