import ScriptBundle.Main
import ScriptBundle.Proofs.Bundle.Closure
import ScriptBundle.Proofs.Bundle.EmissionOrder
import ScriptBundle.Proofs.Bundle.Inlining
import ScriptBundle.Proofs.Script.Scopes
import ScriptBundle.Proofs.Bundle.CircleDetection
import ScriptBundle.Proofs.Script.Copies
import ScriptBundle.Proofs.Script.Relexing
import ScriptBundle.Proofs.Script.Erasing
import ScriptBundle.Proofs.Bundle.Progress
import ScriptBundle.Proofs.Bundle.Interleaving
import ScriptBundle.Proofs.Bundle.Joining
import ScriptBundle.Proofs.Script.Enclosing
import ScriptBundle.Proofs.Bundle.Linking
import ScriptBundle.Proofs.Bundle.Identities
import ScriptBundle.Proofs.Bundle.Names
import ScriptBundle.Proofs.Script.Grammar
import ScriptBundle.Proofs.Script.Replacement
import ScriptBundle.Proofs.Require.Scanning
import ScriptBundle.Proofs.Require.Rescanning
import ScriptBundle.Proofs.Script.Mentions
import ScriptBundle.Proofs.Script.Commentless
import ScriptBundle.Proofs.Require.Targets
import ScriptBundle.Proofs.Require.Arguments
import ScriptBundle.Proofs.Script.Lists
import ScriptBundle.Proofs.Require.Spreads
import ScriptBundle.Proofs.Script.Interpolations
import ScriptBundle.Proofs.Bundle.RecordingOrder
import ScriptBundle.Proofs.Bundle.RefusedRequires
import ScriptBundle.Proofs.Bundle.Depth
import ScriptBundle.Proofs.Cuts
import ScriptBundle.Proofs.Script.Choosing
import ScriptBundle.Proofs.Script.Adjacent
