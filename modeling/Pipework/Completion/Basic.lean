import Pipework.Completion.Expansion
import Pipework.Completion.Recovery

/-! Completion of streams. A text that is a stream is expanded by every strategy; for any other text,
the first recovery strategy that applies is used. A strategy that fails adds nothing. -/

namespace Pipework.Completion

/-- Recovery strategies first, each kind in its own order. -/
def strategyNames : List String := Recovery.all.map Recovery.name ++ Expansion.all.map Expansion.name

/-- A configuration that completion can work with. -/
def checkConfig (c : Config) : Except Fault Unit :=
  match c.validate with
  | .error invalid => .error (.config invalid)
  | .ok () =>
    match c.disabled.find? fun name => !strategyNames.contains name with
    | some name => .error (.unknownStrategy name)
    | none => .ok ()

/-- What may be asked for proposals. -/
inductive Strategy where
  | expansion (e : Expansion)
  | recovery (r : Recovery)
  | missingApp
  deriving DecidableEq, Repr

def found : Found → List Proposal
  | .ok proposals => proposals
  | .error _ => []

section

/-! Nothing that was looked up is kept, so one look-up can go well for one strategy and fail for
another. `ask` tells what each strategy finds when it looks things up. -/

variable (ask : Strategy → Collaborators) (config : Config) (detail : Nat) (typed : String)

def contextOf (s : Strategy) : Context := { ask s with config, detail }

def expandWith (stream : Stream) : List Proposal :=
  (Expansion.all.filter fun e => !config.isDisabled e.name).flatMap fun e =>
    found (e.propose (contextOf ask config detail (.expansion e)) typed stream)

def recoverWith (fault : Pipework.Fault) : List Proposal :=
  match Recovery.all.find? fun r => !config.isDisabled r.name && r.applies typed fault with
  | some r => found (r.propose (contextOf ask config detail (.recovery r)) typed)
  | none => found (Recovery.missingApp (contextOf ask config detail .missingApp) typed fault)

/-- All proposals, before they are ordered. -/
def gatherWith : List Proposal :=
  match Stream.parse typed with
  | .ok stream => expandWith ask config detail typed stream
  | .error fault => recoverWith ask config detail typed fault

def completeWith : List Proposal :=
  rank typed (gatherWith ask config detail typed) config.maxProposals

end

def gather (ctx : Context) (typed : String) : List Proposal :=
  gatherWith (fun _ => ctx.toCollaborators) ctx.config ctx.detail typed

def complete (ctx : Context) (typed : String) : List Proposal :=
  completeWith (fun _ => ctx.toCollaborators) ctx.config ctx.detail typed

end Pipework.Completion
