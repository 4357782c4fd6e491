import Mathlib.Algebra.Order.Ring.Rat
import Trackinizer.Values

namespace Trackinizer

/-- `Inquiry.InquiryKind`. -/
inductive InquiryKind where
  | issue
  | artifact
  | belief
  | experiment
  | paper
  | codeChange
  | webResult
  | webSearch
  | agentSession
  | accessGroup
  deriving DecidableEq, Repr

def InquiryKind.label : InquiryKind → String
  | .issue => "Issue"
  | .artifact => "Artifact"
  | .belief => "Belief"
  | .experiment => "Experiment"
  | .paper => "Paper"
  | .codeChange => "CodeChange"
  | .webResult => "WebResult"
  | .webSearch => "WebSearch"
  | .agentSession => "AgentSession"
  | .accessGroup => "AccessGroup"

/-- `Edge.Kind`: every kind is stored child → parent. -/
inductive EdgeKind where
  | narrows
  | requires
  | producedBy
  | proves
  | favors
  | supersedes
  | citesPaper
  deriving DecidableEq, Repr

def EdgeKind.label : EdgeKind → String
  | .narrows => "narrows"
  | .requires => "requires"
  | .producedBy => "produced_by"
  | .proves => "proves"
  | .favors => "favors"
  | .supersedes => "supersedes"
  | .citesPaper => "cites_paper"

inductive KindGroup where
  | issue
  | inquiry
  | evidence
  | belief
  | experiment
  | claimable
  | paper
  deriving DecidableEq, Repr

/-- `kind_group_members`: the kinds a group admits. -/
def KindGroup.admits : KindGroup → InquiryKind → Bool
  | .issue, k => k == .issue
  | .inquiry, _ => true
  | .evidence, k => k != .issue && k != .accessGroup
  | .belief, k => k == .belief
  | .experiment, k => k == .experiment
  | .claimable, k => k == .belief || k == .experiment
  | .paper, k => k == .paper

/-- One endpoint of a stored edge. -/
inductive Side where
  | from
  | to
  deriving DecidableEq, Repr

structure EdgeKindPolicy where
  fromKinds : KindGroup
  toKinds : KindGroup
  cascadeDependent : Side := .from
  enforcesAcyclicity : Bool := true
  skipsSchedulerOn : Option Side := none
  invalidatesCurrencyOn : Option Side := none
  deriving DecidableEq, Repr

/-- `EDGE_POLICIES`. -/
def edgePolicies : EdgeKind → EdgeKindPolicy
  | .narrows => { fromKinds := .issue, toKinds := .issue, cascadeDependent := .to }
  | .requires => { fromKinds := .issue, toKinds := .issue }
  | .producedBy => { fromKinds := .inquiry, toKinds := .inquiry }
  | .proves => { fromKinds := .evidence, toKinds := .claimable, cascadeDependent := .to }
  | .favors => { fromKinds := .evidence, toKinds := .claimable, cascadeDependent := .to }
  | .supersedes =>
      { fromKinds := .inquiry, toKinds := .inquiry, skipsSchedulerOn := some .to,
        invalidatesCurrencyOn := some .to }
  | .citesPaper => { fromKinds := .paper, toKinds := .paper, enforcesAcyclicity := false }

/-- The kinds whose `priority` column may be set. -/
def carriesPriority : EdgeKind → Bool
  | .narrows | .requires => true
  | _ => false

/-- The citation kinds, whose `valence` column is set. -/
def carriesValence : EdgeKind → Bool
  | .proves | .favors => true
  | _ => false

/-- `PRODUCED_INFERENCE_PRECEDENCE`: the first present kind labels the inference. -/
def producedInferencePrecedence : List EdgeKind :=
  [.producedBy, .narrows, .requires, .supersedes]

/-- `PRODUCED_INFERENCE_SUPPRESSED`. -/
def producedInferenceSuppressed : List EdgeKind :=
  [.producedBy]

/-- A Python `float`, over the values an annotation can be given. -/
inductive PyFloat where
  | nan
  | negInf
  | posInf
  | finite (q : ℚ)
  deriving DecidableEq

/-- `CITATION_VALENCE_DEFAULT`. -/
def citationValenceDefault : PyFloat :=
  .finite (1 / 2)

/-- In `[-1, 1]`; no `nan` is. -/
def PyFloat.inUnit : PyFloat → Bool
  | .finite q => decide (-1 ≤ q ∧ q ≤ 1)
  | _ => false

def PyFloat.label : PyFloat → String
  | .nan => "nan"
  | .negInf => "-inf"
  | .posInf => "inf"
  | .finite q => toString q

end Trackinizer
