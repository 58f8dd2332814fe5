import ShaderExpr.Proofs.Calls
import ShaderExpr.Proofs.Growth

/-!
# Histories of requests

Requests are made to a graph directly, with any handles.  What a request does to a graph is `Request.apply`:
nothing in the builder but the graph and the journal changes with it, and a rejected request leaves the graph
alone. `Builder.after` carries out a history of requests, and `Graph.after` is the graph that they leave
(`Builder.graph_after`).
-/

namespace ShaderExpr

variable {n : Nat}

def Request.apply (g : Graph) : Request → Graph
  | record v => g.push v
  | rebind var expr => g.rebind var expr
  | label h name => g.label h name
  | setUniform h value =>
    match g.setUniform h value with
    | .ok g' => g'
    | .error _ => g

/-- The builder after requests made to its graph, from the first to the last. -/
def Builder.after (b : Builder) (history : List Request) : Builder :=
  history.foldl (fun b r => ((r.perform : Build (Reply 0)).run b).2) b

/-- The graph after requests made to it, from the first to the last. -/
def Graph.after (g : Graph) (history : List Request) : Graph :=
  history.foldl Request.apply g

theorem Request.graph_perform (r : Request) (b : Builder) :
    ((r.perform : Build (Reply n)).run b).2.graph = r.apply b.graph := by
  cases r with
  | record v => rfl
  | rebind var expr => rfl
  | label h name => rfl
  | setUniform h value =>
    unfold perform apply
    rw [Build.run_bind, Build.run_setUniform]
    dsimp only
    cases b.graph.setUniform h value with
    | ok g => rfl
    | error e => cases e <;> rfl

theorem Builder.graph_after (b : Builder) (history : List Request) :
    (b.after history).graph = b.graph.after history := by
  induction history generalizing b with
  | nil => rfl
  | cons r history ih =>
    show ((((r.perform : Build (Reply 0)).run b).2).after history).graph = (r.apply b.graph).after history
    rw [ih, r.graph_perform]

theorem Request.grows_apply (r : Request) (g : Graph) : g.Grows (r.apply g) := by
  cases r with
  | record v => exact g.grows_push v
  | rebind var expr => exact g.grows_rebind var expr
  | label h name => exact g.grows_label h name
  | setUniform h value =>
    unfold apply
    dsimp only
    split
    · rename_i g' hset
      exact Graph.grows_setUniform hset
    · exact .refl g

theorem Graph.grows_after (g : Graph) (history : List Request) : g.Grows (g.after history) := by
  induction history generalizing g with
  | nil => exact .refl g
  | cons r history ih => exact (r.grows_apply g).trans (ih (r.apply g))

end ShaderExpr
