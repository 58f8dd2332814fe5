import ShaderExpr.Config.Document
import ShaderExpr.Session
import ShaderExpr.Proofs.Replay
import ShaderExpr.Proofs.Soundness
import ShaderExpr.Proofs.Atomicity
import ShaderExpr.Proofs.Nesting
import ShaderExpr.Proofs.Cone
import ShaderExpr.Proofs.Concatenation
import ShaderExpr.Proofs.Fragments
import ShaderExpr.Proofs.Placement
import ShaderExpr.Proofs.Literals
import ShaderExpr.Proofs.Reuse
import ShaderExpr.Proofs.Identity
import ShaderExpr.Proofs.Constructors
import ShaderExpr.Proofs.Rules
import ShaderExpr.Proofs.Formulas
import ShaderExpr.Proofs.Reassembly
import ShaderExpr.Proofs.Commuting
import ShaderExpr.Proofs.Layout
import ShaderExpr.Proofs.Exactness
import ShaderExpr.Proofs.Unification
import ShaderExpr.Proofs.Journal
import ShaderExpr.Proofs.Blindness
import ShaderExpr.Proofs.Documents
import ShaderExpr.Proofs.Visibility
import ShaderExpr.Proofs.Messages
import ShaderExpr.Proofs.NormalizedZ
