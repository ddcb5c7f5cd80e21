import Ferryx.Hub.Shell

/-! # The effect of a command (`crates/ferryx-hub/src/effect.rs`)

The functions that rate one command end in `Classification::new` with the summary they were given: a `Rating` is the other
arguments. The classification of `eval` cells and recorded frames is left out. -/

namespace Ferryx.Hub
open Lib
open AgentControl (trim isWhitespace)

inductive Effect where
  | read
  | draft
  | writeLocal
  | vcsLocal
  | vcsRemote
  | vcsProtected
  | externalSend
  | delete
  | spend
  | unknown
  deriving DecidableEq, Repr

namespace Effect

def asStr : Effect → String
  | read => "read"
  | draft => "draft"
  | writeLocal => "write_local"
  | vcsLocal => "vcs_local"
  | vcsRemote => "vcs_remote"
  | vcsProtected => "vcs_protected"
  | externalSend => "external_send"
  | delete => "delete"
  | spend => "spend"
  | unknown => "unknown"

def rank : Effect → Nat
  | read => 0
  | draft => 1
  | writeLocal => 2
  | vcsLocal => 3
  | vcsRemote => 4
  | unknown => 5
  | externalSend => 6
  | delete => 7
  | vcsProtected => 8
  | spend => 9

end Effect

def signatureCarriesCommand (effect : Effect) : Bool :=
  effect = .delete || effect = .vcsProtected || effect = .externalSend || effect = .unknown

/-- The components of `std::path::Path`, as the pieces between `/`: an empty piece is none, `.` only where it is the first.
-/
def isComponent (i : Nat) (piece : String) : Bool := piece ≠ "" && (piece ≠ "." || i = 0)

def dropPieces (pieces : List String) : List String :=
  ((pieces.zipIdx.map fun (piece, i) => (piece, isComponent i piece)).rdropWhile (!·.2)).map (·.1)

def fileName (path : String) : Option String :=
  (dropPieces (splitAtAll path '/')).getLast?.filter fun name => name ≠ "." && name ≠ ".."

def parent (path : String) : Option String :=
  match dropPieces (splitAtAll path '/') with
  | [] => none
  | pieces => match dropPieces pieces.dropLast with
    | [] => some (if startsWith path "/" then "/" else "")
    | before => some ("/".intercalate before)

def extension (path : String) : Option String :=
  (fileName path).bind fun name =>
    match (splitAtAll name '.').reverse with
    | last :: before :: rest => if before = "" && rest = [] then none else some last
    | _ => none

def basename (path : String) : String := (fileName path).getD path

def parentOrSelf (path : String) : String :=
  if path.toList.getLast? = some '/' then trimEndMatches path '/'
  else match (extension path).filter (· ≠ "") with
    | some _ => ((parent path).filter fun p => p ≠ "" && p ≠ ".").getD path
    | none => path

def normalizeTarget (raw : String) : String :=
  let trimmed := trimEndMatches (trim raw) '/'
  let trimmed := match stripPrefix trimmed "/private/tmp" with
    | some rest => "/tmp" ++ rest
    | none => trimmed
  match splitAt trimmed "/.ferryx/hub/workspace/agents/" with
  | some (_, rest) => "~/.ferryx/hub/workspace/agents/" ++ rest
  | none => trimmed

def resolveTargetScope (path cwd : Option String) : String :=
  let path := (path.map trim).filter (· ≠ "")
  let cwd := (cwd.map trim).filter (· ≠ "")
  match path.filter (fun p => startsWith p "/" || startsWith p "~"), cwd, path with
  | some p, _, _ => normalizeTarget (parentOrSelf p)
  | none, some c, _ => normalizeTarget c
  | none, none, some p => normalizeTarget (parentOrSelf p)
  | none, none, none => ""

def resolveFileTarget (path : String) (cwd : Option String) : String :=
  let p := trim path
  if p = "" then resolveTargetScope none cwd
  else if startsWith p "/" || startsWith p "~" then normalizeTarget (parentOrSelf p)
  else match cwd with
    | some c => normalizeTarget c
    | none => normalizeTarget (parentOrSelf p)

def inDraftDirectory (p : String) : Bool :=
  startsWith p "/tmp" || startsWith p "/private/tmp" || contains p "/.ferryx/hub/workspace" ||
    startsWith p "~/.ferryx/hub/workspace"

def isDraftPath (path : String) (cwd : Option String) : Bool :=
  let p := trim path
  inDraftDirectory p || (!startsWith p "/" && !startsWith p "~" && (cwd.map trim).any inDraftDirectory)

structure Rating where
  effect : Effect
  program : String
  target : String
  deriving DecidableEq, Repr

def writes (path : String) (cwd : Option String) : Effect := if isDraftPath path cwd then .draft else .writeLocal

/-- The flags, in another order than the source's, and the other arguments. -/
def splitFlagsAndPositionals (flagsWithValue : List String) : List String → List String × List String
  | [] => ([], [])
  | arg :: args =>
    if arg = "--" then ([], args)
    else if startsWith arg "-" && arg ≠ "-" then
      match args with
      | [] => ([arg], [])
      | value :: args' =>
        let (flags, positionals) :=
          if arg ∈ flagsWithValue then splitFlagsAndPositionals flagsWithValue args'
          else splitFlagsAndPositionals flagsWithValue (value :: args')
        (arg :: flags, positionals)
    else
      let (flags, positionals) := splitFlagsAndPositionals flagsWithValue args
      (flags, arg :: positionals)

def extractFlagValue (names : List String) : List String → Option String
  | [] => none
  | arg :: args =>
    match (if arg ∈ names then args.head? else none).or (names.findSome? fun name => stripPrefix arg (name ++ "=")) with
    | some value => some value
    | none => extractFlagValue names args

def extractRecipient (args : List String) : Option String :=
  (extractFlagValue ["--to", "-t", "--recipient", "--channel", "--chat", "--user"] args).or
    ((splitFlagsAndPositionals ["-m", "--message", "--body", "--subject", "-s"] args).2.find?
      (· ∉ ["send", "reply", "mail", "message", "chat"]))

def pushRefspecIsProtected (refspec : String) : Bool :=
  let refspec := trim refspec
  if startsWith refspec "+" || startsWith refspec ":" then true
  else
    let dst := (splitAtAll refspec ':').getLast?.getD refspec
    let name := (stripPrefix dst "refs/heads/").getD dst
    name ∈ ["main", "master", "production", "prod", "release"] || startsWith name "refs/heads/main"

def clusterHas (letters : List Char) (arg : String) : Bool :=
  startsWith arg "-" && !startsWith arg "--" && arg.toList.tail.any (· ∈ letters)

/-- The options before the subcommand: a config override stops with the repository so far. -/
def gitOptions : Option String → List String → Except (Option String) (Option String × List String)
  | repoCwd, [] => .ok (repoCwd, [])
  | repoCwd, tok :: args =>
    if tok = "-c" || tok = "--config-env" || startsWith tok "--config-env=" || tok = "--exec-path" then .error repoCwd
    else if tok = "-C" || tok = "--git-dir" || tok = "--work-tree" then
      match args with
      | [] => .ok (repoCwd, [])
      | dir :: args => gitOptions (if tok = "-C" then some dir else repoCwd) args
    else match stripPrefix tok "-C" with
      | some dir => gitOptions (some dir) args
      | none => if startsWith tok "-" then gitOptions repoCwd args else .ok (repoCwd, tok :: args)

def classifyGit (args : List String) (cwd : Option String) : Rating :=
  match gitOptions cwd args with
  | .error repoCwd => ⟨.unknown, "git -c", resolveTargetScope none repoCwd⟩
  | .ok (repoCwd, args) =>
    let sub := args.head?.getD ""
    let subArgs := args.tail
    let repoTarget := resolveTargetScope none repoCwd
    if sub ∈ ["status", "diff", "log", "show", "rev-parse", "ls-files", "ls-remote", "cat-file", "describe",
      "shortlog", "blame",
        "reflog", "grep"] then
      if subArgs.any fun a => a = "--output" || startsWith a "--output=" then
        ⟨.writeLocal, "git " ++ sub ++ " --output",
          resolveFileTarget ((extractFlagValue ["--output"] subArgs).getD "") repoCwd⟩
      else if subArgs.any fun a => startsWith a "-O" || startsWith a "--open-files-in-pager" || a = "--ext-diff" then
        ⟨.unknown, "git " ++ sub ++ " -O", repoTarget⟩
      else if sub = "reflog" && subArgs.head?.any (· ∈ ["expire", "delete"]) then
        ⟨.vcsLocal, "git reflog expire", repoTarget⟩
      else ⟨.read, "git " ++ sub, repoTarget⟩
    else if sub = "branch" then
      let (flags, positionals) := splitFlagsAndPositionals [] subArgs
      if flags.any (· ∈ ["-D", "--delete"]) then ⟨.vcsProtected, "git branch -D", repoTarget⟩
      else if positionals = [] ||
          flags.any (· ∈ ["-a", "--all", "-r", "--remotes", "-l", "--list", "--show-current", "-v", "-vv"]) then
        ⟨.read, "git branch", repoTarget⟩
      else ⟨.vcsLocal, "git branch", repoTarget⟩
    else if sub = "worktree" then
      match subArgs.head?.getD "list" with
      | "list" => ⟨.read, "git worktree list", repoTarget⟩
      | "remove" | "prune" => ⟨.delete, "git worktree remove", repoTarget⟩
      | _ => ⟨.vcsLocal, "git worktree add", repoTarget⟩
    else if sub ∈ ["add", "commit", "stash", "checkout", "switch", "rebase", "cherry-pick", "restore", "mv", "rm",
      "init", "fetch",
        "pull"] then
      ⟨.vcsLocal, "git " ++ sub, repoTarget⟩
    else if sub = "reset" then
      if "--hard" ∈ subArgs then ⟨.vcsProtected, "git reset --hard", repoTarget⟩ else ⟨.vcsLocal, "git reset", repoTarget⟩
    else if sub = "clean" then
      if subArgs.any fun a => a = "--dry-run" || clusterHas ['n'] a then ⟨.read, "git clean", repoTarget⟩
      else ⟨.delete, "git clean", repoTarget⟩
    else if sub ∈ ["merge", "tag"] then ⟨.vcsProtected, "git " ++ sub, repoTarget⟩
    else if sub = "push" then
      let (flags, positionals) :=
        splitFlagsAndPositionals ["--repo", "--receive-pack", "--exec", "-o", "--push-option"] subArgs
      let refspecs := if positionals.length > 1 then positionals.tail else positionals
      if (flags.any fun f => startsWith f "--force" || f ∈ ["--tags", "--delete", "--mirror"] || clusterHas ['f', 'd'] f) ||
          refspecs.any pushRefspecIsProtected then
        ⟨.vcsProtected, "git push", repoTarget⟩
      else ⟨.vcsRemote, "git push", repoTarget⟩
    else ⟨.unknown, "git", repoTarget⟩

def extractGhMethod : List String → Option String
  | [] => none
  | arg :: args =>
    if arg = "-X" || arg = "--method" then args.head?.map asciiUppercase
    else match stripPrefix arg "--method=" with
      | some value => some (asciiUppercase value)
      | none => match (stripPrefix arg "-X").filter (· ≠ "") with
        | some value => some (asciiUppercase (String.ofList (value.toList.dropWhile (· == '='))))
        | none => extractGhMethod args

def joinedField (arg : String) : Bool := arg.utf8ByteSize > 2 && (startsWith arg "-f" || startsWith arg "-F")

def ghApiMutatingArg (arg : String) : Bool :=
  arg ∈ ["-f", "-F", "--field", "--raw-field", "--input"] ||
    ["--field=", "--raw-field=", "--input="].any (startsWith arg) ||
    joinedField arg

def graphqlDocument : List String → Option String
  | [] => none
  | arg :: args =>
    let value :=
      if arg ∈ ["-f", "-F", "--field", "--raw-field"] then args.head?
      else match (stripPrefix arg "--field=").or (stripPrefix arg "--raw-field=") with
        | some rest => some rest
        | none => if joinedField arg then some (String.ofList (arg.toList.drop 2)) else none
    match value.bind (stripPrefix · "query=") with
    | some document => some document
    | none => graphqlDocument args

def skipComments : Nat → List Char → List Char
  | lines + 1, '#' :: rest => skipComments lines ((rest.dropWhile (· ≠ '\n')).tail.dropWhile isWhitespace)
  | _, text => text

def graphqlOperation (document : String) : String :=
  let rest := skipComments document.length (document.toList.dropWhile isWhitespace)
  if rest.head? = some '\x7b' then "query"
  else
    let word := String.ofList (rest.takeWhile Char.isAlpha)
    if word ∈ ["query", "mutation", "subscription"] then word else ""

/-- `skip` characters belong to a word that was read already. -/
def declaresWriteFrom : Nat → List Char → Bool
  | _, [] => false
  | skip + 1, _ :: rest => declaresWriteFrom skip rest
  | 0, c :: rest =>
    if !(c.isAlpha || c = '_') then declaresWriteFrom 0 rest
    else
      let tail := rest.takeWhile fun c => c.isAlphanum || c = '_'
      let next := ((rest.drop tail.length).dropWhile isWhitespace).head?
      if String.ofList (c :: tail) ∈ ["mutation", "subscription"] ∧ next ≠ some ':' ∧ next ≠ some '(' then true
      else declaresWriteFrom tail.length rest

def graphqlDeclaresWrite (document : String) : Bool := declaresWriteFrom 0 document.toList

def graphqlIsReadOnly (args : List String) : Bool :=
  if args.any fun a => a = "--input" || startsWith a "--input=" then false
  else match graphqlDocument args with
    | some document => graphqlOperation document = "query" && !graphqlDeclaresWrite document
    | none => false

def ghProgram (group action : String) : String := trim ("gh " ++ group ++ " " ++ action)

def ghApiEffect (args : List String) : Effect :=
  match extractGhMethod args with
  | none =>
    if "graphql" ∈ args then if graphqlIsReadOnly args then .read else .vcsRemote
    else if !args.any ghApiMutatingArg then .read
    else .vcsRemote
  | some method =>
    if method = "GET" && !args.any ghApiMutatingArg then .read
    else if method = "DELETE" then .delete
    else .vcsRemote

def classifyGh (args : List String) (cwd : Option String) : Rating :=
  let nonFlags := args.filter (!startsWith · "-")
  let group := nonFlags.head?.getD ""
  let action := nonFlags.tail.head?.getD ""
  let target := (extractFlagValue ["-R", "--repo"] args).getD (resolveTargetScope none cwd)
  if (group = "pr" && action ∈ ["list", "view", "status", "checks", "diff"]) ||
      (group = "issue" && action ∈ ["list", "view", "status"]) || (group = "run" && action ∈ ["list", "view"]) ||
      (group = "repo" && action ∈ ["view", "list"]) || (group = "release" && action ∈ ["list", "view"]) ||
      group = "search" || (group = "auth" && action = "status") then
    ⟨.read, ghProgram group action, target⟩
  else if group = "api" then ⟨ghApiEffect args, "gh api", target⟩
  else if (group = "pr" && action ∈ ["create", "comment", "edit", "ready", "review", "close", "reopen"]) ||
      (group = "issue" && action ∈ ["create", "comment", "edit", "close", "reopen"]) then
    ⟨.vcsRemote, "gh " ++ group ++ " " ++ action, target⟩
  else if (group = "pr" && action = "merge") || (group = "release" && action ∈ ["create", "delete", "upload"]) ||
      (group = "repo" && action ∈ ["delete", "archive"]) then
    ⟨.vcsProtected, "gh " ++ group ++ " " ++ action, target⟩
  else ⟨.unknown, "gh", target⟩

def sedExpressions : List String → List String
  | [] => []
  | arg :: args =>
    if arg = "-e" || arg = "--expression" then
      match args with
      | [] => []
      | value :: args => value :: sedExpressions args
    else
      match (stripPrefix arg "--expression=").or ((stripPrefix arg "-e").filter (· ≠ "")) with
      | some value => (stripPrefix value "=").getD value :: sedExpressions args
      | none => sedExpressions args

def sedScripts (args positionals : List String) : List String :=
  if sedExpressions args = [] then positionals.take 1 else sedExpressions args

def stripSedAddresses : Nat → List Char → List Char
  | 0, rest => rest.dropWhile isWhitespace
  | n + 1, rest =>
    let trimmed := rest.dropWhile isWhitespace
    let after := match trimmed with
      | '$' :: after => some after
      | '/' :: after => if '/' ∈ after then some (after.dropWhile (· ≠ '/')).tail else none
      | c :: _ => if c.isDigit then some (trimmed.dropWhile Char.isDigit) else none
      | [] => none
    match after with
    | none => trimmed
    | some after =>
      let rest := if after.head? = some ',' then after.tail else after
      match rest.dropWhile isWhitespace with
      | [] => []
      | c :: more => if c.isDigit || c = '$' || c = '/' then stripSedAddresses n rest else c :: more

def sedFlags (delim : Char) : Nat → Nat → List Char → Option (List Char)
  | _, _, [] => none
  | skip + 1, seen, _ :: rest => sedFlags delim skip seen rest
  | 0, seen, c :: rest =>
    if c = '\\' then sedFlags delim 1 seen rest
    else if c = delim then
      if seen = 1 then some (rest.takeWhile (· ≠ delim)) else sedFlags delim 0 (seen + 1) rest
    else sedFlags delim 0 seen rest

def sedSubstHasWFlag (cmd : List Char) : Bool :=
  match cmd with
  | 's' :: delim :: c :: rest => ((sedFlags delim 0 0 (c :: rest)).getD []).any fun flag => flag = 'w' || flag = 'W'
  | _ => false

def sedScriptWritesFile (script : String) : Bool :=
  (script.toList.splitOnP fun c => c = ';' || c = '\n' || c = '\x7d').any fun part =>
    let cmd := stripSedAddresses 2 (part.dropWhile isWhitespace)
    cmd.head? = some 'w' || cmd.head? = some 'W' || sedSubstHasWFlag cmd

def classifySed (args : List String) (cwd : Option String) : Rating :=
  let inPlace := args.any fun a => startsWith a "--in-place" || clusterHas ['i'] a
  let scriptFile := args.any fun a => a = "--file" || startsWith a "--file=" || startsWith a "-f"
  let (_, positionals) := splitFlagsAndPositionals ["-e", "-f"] args
  let file := positionals.getLast?.getD ""
  let writesFile := (sedScripts args positionals).any sedScriptWritesFile
  if scriptFile then ⟨.unknown, "sed -f", resolveTargetScope (some file) cwd⟩
  else if inPlace || writesFile then ⟨writes file cwd, if inPlace then "sed -i" else "sed w", resolveFileTarget file cwd⟩
  else ⟨.read, "sed", resolveTargetScope (some file) cwd⟩

def isSelect (statement : String) : Bool :=
  ((stripPrefix statement "select").bind (·.toList.head?)).any fun c => isWhitespace c || c = '('

def classifySqlite (args : List String) (cwd : Option String) : Rating :=
  let hasCmd := args.any fun a =>
    a ∈ ["-cmd", "--cmd", "-init", "--init"] || ["-cmd=", "--cmd=", "-init=", "--init="].any (startsWith a)
  let (_, positionals) := splitFlagsAndPositionals ["-cmd", "-separator", "-init", "-nullvalue", "-vfs"] args
  let dbPath := positionals.head?
  let sql := (positionals.tail.head?.map asciiLowercase).getD ""
  let target := resolveTargetScope dbPath cwd
  let dangerous :=
    [".shell", ".system", ".output", ".once", ".import", ".backup", ".restore", "writefile", "load_extension",
    "attach ", "vacuum"].any (contains sql)
  if hasCmd || positionals.length > 2 || dangerous then ⟨.unknown, "sqlite3", target⟩
  else
    let statements := ((splitAtAll sql ';').map trim).filter (· ≠ "")
    if statements ≠ [] && statements.all isSelect then ⟨.read, "sqlite3", target⟩
    else ⟨writes (dbPath.getD "") cwd, "sqlite3", target⟩

def classifyCargo (args : List String) (cwd : Option String) : Rating :=
  let sub := (args.find? (!startsWith · "-")).getD ""
  let target := resolveTargetScope none cwd
  if sub ∈ ["check", "clippy", "test", "bench", "fmt", "fix", "build", "add", "remove", "update"] then
    ⟨.writeLocal, "cargo " ++ sub, target⟩
  else if sub ∈ ["doc", "metadata", "tree", "version"] then ⟨.read, "cargo " ++ sub, target⟩
  else if sub = "publish" then ⟨.vcsProtected, "cargo publish", target⟩
  else ⟨.unknown, "cargo", target⟩

def isSpendInvocation (prog : String) (args : List String) : Bool :=
  let tokens := (prog :: args).map asciiLowercase
  prog ∈ ["stripe", "paypal", "payment", "billing", "purchase"] ||
    (tokens.zip tokens.tail).any (· ∈ [("stripe", "charges"), ("stripe", "payment"), ("checkout", "--confirm"),
      ("xenoci", "build"), ("xenocast", "build")]) ||
    tokens.any fun t => t = "--pay" || startsWith t "--pay="

def readPrograms : List String :=
  ["ls", "pwd", "cat", "head", "tail", "wc", "stat", "file", "du", "df", "which", "type", "uname", "date", "whoami", "id",
    "printenv", "jq", "true", "false", "echo", "printf"]

def classifyTokens (tokens : List String) (cwd : Option String) : Rating :=
  match tokens with
  | [] => ⟨.unknown, "empty", ""⟩
  | first :: args =>
    let prog := basename first
    if isSpendInvocation prog args then ⟨.spend, prog ++ " spend", resolveTargetScope none cwd⟩
    else if prog = "git" then classifyGit args cwd
    else if prog = "gh" then classifyGh args cwd
    else if prog ∈ ["rm", "rmdir", "unlink", "trash"] then
      ⟨.delete, prog, resolveTargetScope (splitFlagsAndPositionals [] args).2.head? cwd⟩
    else if prog = "find" then
      let (_, positionals) := splitFlagsAndPositionals ["-name", "-path", "-type", "-maxdepth", "-mindepth"] args
      let target := resolveTargetScope positionals.head? cwd
      if args.any fun a => a = "-delete" || a = "rm" || startsWith a "-exec" then ⟨.delete, "find -delete", target⟩
      else ⟨.read, "find", target⟩
    else if prog ∈ readPrograms then
      let (_, positionals) := splitFlagsAndPositionals [] args
      let path := positionals.find? fun p => startsWith p "/" || startsWith p "~" || startsWith p "."
      ⟨.read, prog, resolveTargetScope path cwd⟩
    else if prog ∈ ["rg", "grep", "egrep", "fgrep"] then
      if args.any fun a => a = "--pre" || startsWith a "--pre=" then
        ⟨.unknown, prog ++ " --pre", resolveTargetScope none cwd⟩
      else
        let (_, positionals) := splitFlagsAndPositionals
          ["-e", "-f", "-g", "--glob", "-t", "--type", "-A", "-B", "-C", "-m", "--max-count"] args
        ⟨.read, prog, resolveTargetScope (if positionals.length ≥ 2 then positionals.getLast? else none) cwd⟩
    else if prog = "sqlite3" then classifySqlite args cwd
    else if prog ∈ ["touch", "mkdir", "cp", "mv", "chmod", "chown", "truncate", "tee"] then
      let dst := (splitFlagsAndPositionals ["-m", "-o", "-g"] args).2.getLast?.getD ""
      ⟨writes dst cwd, prog, resolveFileTarget dst cwd⟩
    else if prog = "sed" then classifySed args cwd
    else if prog ∈ ["imsg", "slack-cli", "sendmail", "mail", "mailx"] then
      ⟨.externalSend, prog, (extractRecipient args).getD "external"⟩
    else if prog = "zele" then
      if args.any (· ∈ ["send", "reply", "forward"]) then
        ⟨.externalSend, "zele mail send", (extractRecipient args).getD "mail"⟩
      else ⟨.read, "zele", resolveTargetScope none cwd⟩
    else if prog = "cargo" then classifyCargo args cwd
    else if prog ∈ ["npm", "bun", "pnpm", "yarn", "make"] then
      let sub := (args.find? (!startsWith · "-")).getD ""
      if sub ∈ ["test", "run", "install", "ci", "start", "build", "deploy", ""] || prog = "make" then
        ⟨.unknown, trim (prog ++ " " ++ sub), resolveTargetScope none cwd⟩
      else ⟨.read, prog, resolveTargetScope none cwd⟩
    else ⟨.unknown, prog, resolveTargetScope none cwd⟩

/-- The text `{:016x}` of the default hasher of the standard library. -/
class CodeHash where
  codeHash : String → String

export CodeHash (codeHash)

@[reducible] def noHash : CodeHash := ⟨fun _ => "0000000000000000"⟩

structure Classification where
  effect : Effect
  program : String
  target : String
  signature : String
  summary : String
  deriving DecidableEq, Repr

def exactCommand (command : String) : String := " ".intercalate ((wordsOf isWhitespace command.toList).map String.ofList)

def pushExactCommand (signature command : String) : String :=
  if exactCommand command ≠ "" then signature ++ "|" ++ exactCommand command else signature

def signatureBase (effect : Effect) (program target : String) : String := effect.asStr ++ ":" ++ program ++ ":" ++ target

def Rating.classification (r : Rating) (summary : String) : Classification where
  effect := r.effect
  program := r.program
  target := normalizeTarget r.target
  signature :=
    let base := signatureBase r.effect r.program (normalizeTarget r.target)
    if signatureCarriesCommand r.effect then pushExactCommand base summary else base
  summary

def Classification.new (effect : Effect) (program target summary : String) : Classification :=
  Rating.classification ⟨effect, program, target⟩ summary

/-- The classification of the segment that decides, for the whole line: its precedent must cover every segment. -/
def Classification.covering [CodeHash] (c : Classification) (line : String) : Classification :=
  { c with
    summary := line
    signature :=
      if signatureCarriesCommand c.effect then pushExactCommand (signatureBase c.effect c.program c.target) line
      else c.signature ++ "|" ++ codeHash line }

def moreConsequential (c : Classification) : Option Classification → Option Classification
  | some worst => if c.effect.rank > worst.effect.rank then some c else some worst
  | none => some c

/-- The loop over the segments of a line: the most consequential decides, and `cd` carries forward. -/
def worstSegment (classify : String → Option String → Classification) :
    Option String → Option Classification → List String → Option Classification
  | _, worst, [] => worst
  | segCwd, worst, seg :: segments =>
    let (nextCwd, body) := peelCdPrefix seg segCwd
    if body = "" ∨ body = "cd" then worstSegment classify segCwd worst segments
    else match stripPrefix body "cd " with
      | some dir => worstSegment classify (some (joinCwd segCwd (cdDirectory dir))) worst segments
      | none => worstSegment classify segCwd (moreConsequential (classify body nextCwd) worst) segments

def shellScript : List String → Option String
  | prog :: flag :: script :: _ => if basename prog ∈ ["sh", "bash", "zsh"] ∧ flag = "-c" then some script else none
  | _ => none

section Commands
variable [CodeHash]

def classifyStep (classify : String → Option String → Classification) (command : String) (cwd : Option String) :
    Classification :=
  let trimmed := trim command
  if trimmed = "" then .new .unknown "empty" "" "empty command"
  else if hasUnquotedSubstitution trimmed then .new .unknown "shell" (resolveTargetScope none cwd) trimmed
  else if (splitShellSegments trimmed).length > 1 then
    match worstSegment classify cwd none (splitShellSegments trimmed) with
    | some c => c.covering trimmed
    | none => .new .read "cd" "" trimmed
  else
    let (effectiveCwd, body) := peelCdPrefix trimmed cwd
    match detectOutputRedirection body with
    | some target => .new (writes target effectiveCwd) "redirect" (resolveFileTarget target effectiveCwd) trimmed
    | none =>
      match skipEnvAssignments (tokenizeShell body) with
      | [] => .new .unknown "empty" "" trimmed
      | prog :: args =>
        match shellScript (prog :: args) with
        | some script => classify script effectiveCwd
        | none => (classifyTokens (prog :: args) effectiveCwd).classification trimmed

def classifyWithin : Nat → String → Option String → Classification
  | 0 => fun command _ => .new .unknown "empty" "" command
  | depth + 1 => classifyStep (classifyWithin depth)

/-- Every call inside is for a shorter text, so the depth is enough. -/
def classifyCommand (command : String) (cwd : Option String) : Classification :=
  classifyWithin (command.toList.length + 1) command cwd

end Commands

def classifyFileChange (path : String) (cwd : Option String) : Classification :=
  .new (writes (trim path) cwd) "edit" (resolveFileTarget (trim path) cwd) ("edit " ++ trim path)

end Ferryx.Hub
