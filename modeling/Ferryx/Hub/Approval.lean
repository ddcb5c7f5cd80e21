import Ferryx.Hub.Effect

/-!
# Approvals of tool requests (`crates/ferryx-hub/src/chat/turn_approval.rs`, `meta/omo_client.rs`, `effect.rs`)

A request is decided by policy, by a precedent in the session's grants or the allowlist, or by the owner, who gets a card.
Every await of `ask` ends a step. The card's text and blocks and the report of the gate are left out.
-/

namespace Ferryx.Hub
open Lib
open AgentControl (trim isWhitespace)

structure Frame where
  method : Option String := none
  command : Option String := none
  cwd : Option String := none
  reason : Option String := none
  grantRoot : Option String := none
  itemId : Option String := none
  deriving DecidableEq

def trimStart (s : String) : String := String.ofList (s.toList.dropWhile isWhitespace)

/-- `str::lines`, without the carriage returns: every caller trims its lines. -/
def extractPrefixedLine (text pre : String) : Option String :=
  (splitAtAll text '\n').findSome? fun line => (stripPrefix (trim line) pre).map trim

/-- The first of `str::lines`: it may end in a carriage return and a newline. -/
def firstLine (text : String) : String :=
  match text.toList.splitOn '\n' with
  | [] => ""
  | [line] => String.ofList line
  | line :: _ => String.ofList (if line.getLast? = some '\r' then line.dropLast else line)

def Frame.ownCommand (frame : Frame) : Option String := (frame.command.map trim).filter (· ≠ "")

def isBareEvalFrame (frame : Frame) : Bool :=
  contains (frame.method.getD "item/commandExecution/requestApproval") "commandExecution" && frame.ownCommand = none &&
    (frame.itemId.getD "" = "approval-eval" || startsWith (trimStart (frame.reason.getD "")) "Tool: eval")

def Frame.isFileChange (frame : Frame) : Bool :=
  frame.method.getD "" = "item/fileChange/requestApproval" || startsWith (trimStart (frame.reason.getD "")) "File:"

/-- The command of a frame that is not a file change: its own, or the one its reason names. -/
def Frame.shellCommand (frame : Frame) : Option String :=
  frame.ownCommand.or (((extractPrefixedLine (frame.reason.getD "") "Command:").map fun line =>
    trim (String.ofList (line.toList.dropWhile (· == '$')))).filter (· ≠ ""))

section Frames
variable [CodeHash]

def classifyFrame (frame : Frame) (defaultCwd : Option String) : Classification :=
  let cwd := (frame.cwd.filter fun c => trim c ≠ "").or defaultCwd
  let reason := frame.reason.getD ""
  if frame.isFileChange then
    classifyFileChange (((extractPrefixedLine reason "File:").or frame.grantRoot).getD "unknown") cwd
  else match frame.shellCommand with
    | some command => classifyCommand command cwd
    | none =>
      match extractPrefixedLine reason "Directory:" with
      | some dir =>
        .new (if isDraftPath dir cwd then .draft else .unknown) "directory" (resolveTargetScope (some dir) cwd)
          ("directory access " ++ dir)
      | none =>
        if isBareEvalFrame frame then .new .unknown "eval" (resolveTargetScope none cwd) "Tool: eval"
        else .new .unknown "unknown" (resolveTargetScope none cwd)
          (if reason = "" then "unknown approval request" else firstLine reason)

def denialReason : String :=
  "denied by gateway policy - do not retry this tool; ask the user for the information instead"

def approvalVerdict (fullAccess always : Bool) (frame : Frame) (cwd : Option String) : Option String :=
  if fullAccess then none
  else if always then some denialReason
  else
    let c := classifyFrame frame cwd
    if c.effect = .read ∨ c.effect = .draft ∨ c.effect = .writeLocal ∨ c.effect = .vcsLocal then none
    else some (denialReason ++ " (" ++ c.effect.asStr ++ ": " ++ c.summary ++ ")")

end Frames

inductive Choice where
  | once
  | session
  | always
  | deny
  deriving DecidableEq

inductive Outcome where
  | policy
  | declined (reason : String)
  | granted
  | answered (choice : Choice)
  | unanswered
  deriving DecidableEq

def Outcome.verdict : Outcome → Option String
  | policy | granted => none
  | declined reason => some reason
  | answered choice => if choice = .deny then some "denied by the owner" else none
  | unanswered =>
    some "owner has not answered yet; continue with other work and mention the pending approval in your report"

inductive Stage where
  | checking
  | posting
  | waiting
  | done (outcome : Outcome)
  deriving DecidableEq

structure Ask where
  session : String
  frame : Frame
  cwd : Option String
  stage : Stage
  answer : Option Choice := none
  deriving DecidableEq

structure Approvals where
  sessionGrants : List (String × String) := []
  allowlist : List String := []
  asks : List Ask := []
  deriving DecidableEq

inductive ApprovalsAction where
  /-- A request in a turn of a session; a turn without an approver is not attended. -/
  | request (session : String) (frame : Frame) (cwd : Option String) (attended : Bool)
  | allowlisted (i : Nat) (readable : Bool)
  | posted (i : Nat) (ok : Bool)
  | click (i : Nat) (choice : Choice) (authorized : Bool)
  | resume (i : Nat) (stored : Bool)
  | expire (i : Nat)
  | restart

namespace Approvals

def setAsk (w : Approvals) (i : Nat) (a : Ask) : Approvals := { w with asks := w.asks.set i a }

section Steps
variable [CodeHash]

local instance : LawfulBEq (String × String) := Prod.instLawfulBEq

def Ask.classification (a : Ask) : Classification := classifyFrame a.frame a.cwd

def retiredGatewayReason : String :=
  "omo-gateway is intentionally retired and replaced by the ferryx hub; it must never be started, enabled, kickstarted " ++
    "or loaded again. Do not retry; report instead."

def firstStage (fullAccess always : Bool) (retired : Frame → Bool) (w : Approvals) (session : String) (frame : Frame)
    (cwd : Option String) (attended : Bool) : Stage :=
  if retired frame then .done (.declined retiredGatewayReason)
  else match approvalVerdict fullAccess always frame cwd with
    | none => .done .policy
    | some reason =>
      if !attended then .done (.declined reason)
      else if (session, (classifyFrame frame cwd).signature) ∈ w.sessionGrants then .done .granted
      else .checking

def grant (w : Approvals) (a : Ask) (choice : Choice) (stored : Bool) : Approvals :=
  match choice with
  | .once | .deny => w
  | .session => { w with sessionGrants := (a.session, (Ask.classification a).signature) :: w.sessionGrants }
  | .always => if stored then { w with allowlist := (Ask.classification a).signature :: w.allowlist } else w

def endAsk (a : Ask) : Ask :=
  match a.stage with
  | .done _ => a
  | _ => { a with stage := .done .unanswered }

def step (fullAccess always : Bool) (retired : Frame → Bool) (w : Approvals) : ApprovalsAction → Approvals
  | .request session frame cwd attended =>
    let stage := w.firstStage fullAccess always retired session frame cwd attended
    { w with asks := w.asks ++ [{ session, frame, cwd, stage }] }
  | .allowlisted i readable =>
    match w.asks[i]? with
    | some a =>
      if a.stage = .checking then
        let found := readable && (Ask.classification a).signature ∈ w.allowlist
        w.setAsk i { a with stage := if found then .done .granted else .posting }
      else w
    | none => w
  | .posted i ok =>
    match w.asks[i]? with
    | some a =>
      if a.stage = .posting then w.setAsk i { a with stage := if ok then .waiting else .done .unanswered } else w
    | none => w
  | .click i choice authorized =>
    match w.asks[i]? with
    | some a =>
      if authorized ∧ (a.stage = .posting ∨ a.stage = .waiting) ∧ a.answer = none then
        w.setAsk i { a with answer := some choice }
      else w
    | none => w
  | .resume i stored =>
    match w.asks[i]? with
    | some a =>
      match a.answer with
      | some choice =>
        if a.stage = .waiting then (w.grant a choice stored).setAsk i { a with stage := .done (.answered choice) } else w
      | none => w
    | none => w
  | .expire i =>
    match w.asks[i]? with
    | some a => w.setAsk i (endAsk a)
    | none => w
  | .restart => { w with sessionGrants := [], asks := w.asks.map endAsk }

def approvals (fullAccess always : Bool) (retired : Frame → Bool) : System Approvals ApprovalsAction where
  init w := w = {}
  step w a w' := w' = w.step fullAccess always retired a

end Steps
end Approvals
end Ferryx.Hub
