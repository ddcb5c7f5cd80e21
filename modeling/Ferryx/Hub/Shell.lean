import Ferryx.Lib.Text
import Ferryx.AgentControl.Fence

/-! # Command lines (`crates/ferryx-hub/src/effect.rs`)

The scanners over a command's text. The source's flags `in_single` and `in_double`, which are never both set, are one
`Quote`. -/

namespace Ferryx.Hub
open Lib
open AgentControl (trim isWhitespace)

inductive Quote where
  | bare
  | single
  | double
  deriving DecidableEq, Repr

def Quote.toggle : Quote → Char → Quote
  | .bare, c => if c = '\'' then .single else if c = '"' then .double else .bare
  | .single, c => if c = '\'' then .bare else .single
  | .double, c => if c = '"' then .bare else .double

def substitutesFrom : Quote → Char → List Char → Bool
  | _, _, [] => false
  | q, prev, c :: rest =>
    if c = '\\' ∧ q ≠ .single then
      match rest with
      | [] => false
      | _ :: rest => substitutesFrom q '\x00' rest
    else if c = '`' ∧ q ≠ .single then true
    else if c = '$' ∧ q ≠ .single ∧ rest.head? = some '(' then true
    else if c = '(' ∧ q = .bare ∧ (prev = '<' ∨ prev = '>') then true
    else substitutesFrom (q.toggle c) c rest

def hasUnquotedSubstitution (input : String) : Bool := substitutesFrom .bare '\x00' input.toList

def isSeparator (c : Char) : Bool := c = ';' ∨ c = '|' ∨ c = '&' ∨ c = '\n'

def piecesFrom : Quote → List Char → List Char → List (List Char)
  | _, current, [] => [current]
  | q, current, c :: rest =>
    if c = '\\' ∧ q ≠ .single then
      match rest with
      | [] => [current ++ [c]]
      | n :: rest => piecesFrom q (current ++ [c, n]) rest
    else if q.toggle c = .bare ∧ isSeparator c then
      -- `>&2`, `2>&1` and `&>` are redirections, not separators.
      if c = '&' ∧ (current.getLast? = some '>' ∨ rest.head? = some '>') then piecesFrom (q.toggle c) (current ++ [c]) rest
      else
        match rest with
        | [] => [current, []]
        | n :: rest' =>
          if (c = '|' ∨ c = '&') ∧ n = c then current :: piecesFrom (q.toggle c) [] rest'
          else current :: piecesFrom (q.toggle c) [] (n :: rest')
    else piecesFrom (q.toggle c) (current ++ [c]) rest

def segment (current : List Char) : List (List Char) :=
  if strip isWhitespace current = [] then [] else [strip isWhitespace current]

def splitShellSegments (input : String) : List String :=
  ((piecesFrom .bare [] input.toList).flatMap segment).map String.ofList

def token (current : List Char) : List String := if current = [] then [] else [String.ofList current]

def tokensFrom : Quote → List Char → List Char → List String
  | _, current, [] => token current
  | .single, current, c :: rest =>
    if c = '\'' then tokensFrom .bare current rest else tokensFrom .single (current ++ [c]) rest
  | .double, current, c :: rest =>
    if c = '"' then tokensFrom .bare current rest
    else if c = '\\' then
      match rest with
      | [] => token current
      | n :: rest => tokensFrom .double (current ++ [n]) rest
    else tokensFrom .double (current ++ [c]) rest
  | .bare, current, c :: rest =>
    if c = '\'' then tokensFrom .single current rest
    else if c = '"' then tokensFrom .double current rest
    else if c = '\\' then
      match rest with
      | [] => token current
      | n :: rest => tokensFrom .bare (current ++ [n]) rest
    else if isWhitespace c then token current ++ tokensFrom .bare [] rest
    else tokensFrom .bare (current ++ [c]) rest

def tokenizeShell (input : String) : List String := tokensFrom .bare [] input.toList

def readShellWord : Quote → List Char → List Char × List Char
  | _, [] => ([], [])
  | .single, c :: rest =>
    if c = '\'' then readShellWord .bare rest
    else let (word, after) := readShellWord .single rest; (c :: word, after)
  | .double, c :: rest =>
    if c = '"' then readShellWord .bare rest
    else if c = '\\' then
      match rest with
      | [] => ([], [])
      | n :: rest => let (word, after) := readShellWord .double rest; (n :: word, after)
    else let (word, after) := readShellWord .double rest; (c :: word, after)
  | .bare, c :: rest =>
    if c = '\\' then
      match rest with
      | [] => ([], [])
      | n :: rest => let (word, after) := readShellWord .bare rest; (n :: word, after)
    else if c = '\'' then readShellWord .single rest
    else if c = '"' then readShellWord .double rest
    else if isWhitespace c ∨ c = ';' ∨ c = '|' ∨ c = '&' ∨ c = '>' then ([], c :: rest)
    else let (word, after) := readShellWord .bare rest; (c :: word, after)

/-- What a `>` at the start of `text`, after an optional descriptor, does: nothing at all, a file it writes, or the text
after it. -/
inductive Redirection where
  | absent
  | writes (target : List Char)
  | passes (after : List Char)

def redirectionTarget (text : List Char) : Redirection :=
  let (word, next) := readShellWord .bare text
  -- The target may be detached.
  let (target, next) := if word = [] then readShellWord .bare (text.dropWhile isWhitespace) else (word, next)
  if target ≠ [] ∧ target.head? ≠ some '&' ∧ target ≠ "/dev/null".toList then .writes target
  else .passes (if next.length < text.length then next else text.drop 1)

def redirectionAt (text : List Char) : Redirection :=
  let op := if text.head? = some '&' ∧ text.tail.head? = some '>' then text.tail else text.dropWhile Char.isDigit
  match op with
  | '>' :: after =>
    let last := match after with
      | '>' :: rest => rest
      | '|' :: rest => rest
      | _ => after
    match last with
    | '&' :: descriptor =>
      -- `>&2` duplicates a descriptor, `>&file` writes the file.
      let rest := descriptor.dropWhile fun c => c.isDigit || c = '-'
      if rest.length < descriptor.length then .passes rest else redirectionTarget descriptor
    | _ => redirectionTarget last
  | _ => .absent

def redirectionFrom : Quote → Nat → List Char → Option String
  | _, _, [] => none
  | q, skip + 1, _ :: rest => redirectionFrom q skip rest
  | .single, 0, c :: rest => redirectionFrom (if c = '\'' then .bare else .single) 0 rest
  | .double, 0, c :: rest =>
    if c = '"' then redirectionFrom .bare 0 rest
    else if c = '\\' then redirectionFrom .double 1 rest
    else redirectionFrom .double 0 rest
  | .bare, 0, c :: rest =>
    if c = '\\' then redirectionFrom .bare 1 rest
    else if c = '\'' then redirectionFrom .single 0 rest
    else if c = '"' then redirectionFrom .double 0 rest
    else
      match redirectionAt (c :: rest) with
      | .absent => redirectionFrom .bare 0 rest
      | .writes target => some (String.ofList target)
      | .passes after => redirectionFrom .bare (rest.length - after.length) rest

def detectOutputRedirection (cmd : String) : Option String := redirectionFrom .bare 0 cmd.toList

def isAssignmentName (name : String) : Bool := name ≠ "" && name.toList.all fun c => c.isAlphanum || c = '_'

def skipEnvAssignments : List String → List String
  | [] => []
  | t :: tokens =>
    if t = "env" then skipEnvAssignments tokens
    else match splitAt t "=" with
      | some (name, _) => if isAssignmentName name then skipEnvAssignments tokens else t :: tokens
      | none => t :: tokens

def cdDirectory (text : String) : String := trimMatches (trimMatches (trim text) '"') '\''

def joinParts : List String → List String → List String
  | parts, [] => parts
  | parts, comp :: comps =>
    if comp = "" ∨ comp = "." then joinParts parts comps
    else if comp = ".." then joinParts (if parts.length > 1 then parts.dropLast else parts) comps
    else joinParts (parts ++ [comp]) comps

def joinCwd (cwd : Option String) (dir : String) : String :=
  match (cwd.map trim).filter (· ≠ "") with
  | some base =>
    if startsWith dir "/" || startsWith dir "~" then dir
    else
      let joined := "/".intercalate (joinParts (splitAtAll (trimEndMatches base '/') '/') (splitAtAll dir '/'))
      if joined = "" then "/" else joined
  | none => dir

def peelCdPrefix (command : String) (cwd : Option String) : Option String × String :=
  let trimmed := trim command
  match stripPrefix trimmed "cd " with
  | some rest =>
    match (splitAt rest "&&").or (splitAt rest ";") with
    | some (dirPart, after) =>
      if cdDirectory dirPart ≠ "" then (some (joinCwd cwd (cdDirectory dirPart)), trim after) else (cwd, trimmed)
    | none => (cwd, trimmed)
  | none => (cwd, trimmed)

end Ferryx.Hub
