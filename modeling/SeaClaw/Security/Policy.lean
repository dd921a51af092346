import Mathlib.Data.List.Infix
import SeaClaw.Core.Error
import SeaClaw.Lib.CString

/-!
# The command policy

Which shell commands a policy lets through. A command is cut into parts at its
operators, and the first word of each part is looked up in the allowlist. The buffer in
which this happens keeps a NUL in the place of each operator.
-/

namespace SeaClaw.Security

open Lib

/-- `SC_MAX_ANALYSIS_LEN` -/
def maxAnalysisLen : ℕ := 16384

/-- `sc_autonomy_level_t` -/
inductive AutonomyLevel where
  | locked | supervised | assisted | autonomous
  deriving DecidableEq, Repr

/-- `sc_command_risk_level_t` -/
inductive CommandRiskLevel where
  | low | medium | high
  deriving DecidableEq, Repr

/-- `sc_security_policy_t`, as far as commands are concerned. An allowlist that is not
there is empty. -/
structure SecurityPolicy where
  autonomy : AutonomyLevel
  allowedCommands : List (Option CString)
  requireApprovalForMediumRisk : Bool
  blockHighRiskCommands : Bool

def highRiskCommands : List Bytes :=
  ["rm", "mkfs", "dd", "shutdown", "reboot", "halt", "poweroff", "sudo", "su", "chown", "chmod",
    "useradd", "userdel", "usermod", "passwd", "mount", "umount", "iptables", "ufw",
    "firewall-cmd", "curl", "wget", "nc", "ncat", "netcat", "scp", "ssh", "ftp",
    "telnet"].map ascii

def defaultAllowed : List (Option CString) :=
  [some ⟨ascii "git", by decide⟩, some ⟨ascii "npm", by decide⟩, some ⟨ascii "cargo", by decide⟩,
    some ⟨ascii "ls", by decide⟩, some ⟨ascii "cat", by decide⟩, some ⟨ascii "grep", by decide⟩,
    some ⟨ascii "find", by decide⟩, some ⟨ascii "echo", by decide⟩, some ⟨ascii "pwd", by decide⟩,
    some ⟨ascii "wc", by decide⟩, some ⟨ascii "head", by decide⟩, some ⟨ascii "tail", by decide⟩]

/-- The allowlist that is looked at. -/
def SecurityPolicy.allowlist (p : SecurityPolicy) : List (Option CString) :=
  if p.allowedCommands = [] then defaultAllowed else p.allowedCommands

/-! ## Words -/

/-- A space or a tab. -/
def isBlank (b : UInt8) : Bool := b = ch ' ' ∨ b = ch '\t'

/-- `basename_ptr` -/
def basenamePtr (path : Bytes) : Bytes := afterLast (ch '/') path

/-- `contains_str`, and `strstr` -/
def containsStr (haystack : Bytes) (needle : String) : Bool := ascii needle <:+: haystack

/-- `is_high_risk_command` -/
def isHighRiskCommand (base : Bytes) : Bool := highRiskCommands.any (SameFold base ·)

/-- `is_medium_risk_cmd`, where no argument is the same as an empty one. -/
def isMediumRiskCmd (base firstArg : Bytes) : Bool :=
  let argLower := ((firstArg.takeWhile (· ≠ ch ' ')).take 255).map toLower
  (base = ascii "git" ∧ argLower ∈ ["commit", "push", "reset", "clean", "rebase", "merge",
    "cherry-pick", "revert", "branch", "checkout", "switch", "tag"].map ascii) ∨
  ((base = ascii "npm" ∨ base = ascii "pnpm" ∨ base = ascii "yarn") ∧
    argLower ∈ ["install", "add", "remove", "uninstall", "update", "publish"].map ascii) ∨
  (base = ascii "cargo" ∧
    argLower ∈ ["add", "remove", "install", "clean", "publish"].map ascii) ∨
  base ∈ ["touch", "mkdir", "mv", "cp", "ln"].map ascii

/-- `isalpha` in the C locale. -/
def isAlpha (b : UInt8) : Bool := ch 'a' ≤ toLower b ∧ toLower b ≤ ch 'z'

/-- `KEY=value`: there is a `=` in the word, and not in front. -/
def isAssignment (word : Bytes) : Bool :=
  match word with
  | [] => false
  | b :: w => ch '=' ∈ w ∧ b ≠ ch '=' ∧ (isAlpha b ∨ b = ch '_')

/-- The loop of `skip_env_assignments`, which goes one word further each time. -/
def skipEnvLoop : ℕ → Bytes → Bytes
  | 0, s => s
  | fuel + 1, s =>
    let s := s.dropWhile isBlank
    if isAssignment (s.takeWhile (¬ isBlank ·)) then skipEnvLoop fuel (s.dropWhile (¬ isBlank ·))
    else s

/-- `skip_env_assignments` -/
def skipEnvAssignments (s : Bytes) : Bytes := skipEnvLoop (s.length + 1) s

/-- `contains_single_ampersand`, behind an ampersand or not. -/
def singleAmpersand : Bool → Bytes → Bool
  | _, [] => false
  | prev, b :: s =>
    if b ≠ ch '&' then singleAmpersand false s
    else if ¬ prev ∧ s.head? ≠ some (ch '&') then true
    else singleAmpersand true s

/-- `contains_single_ampersand` -/
def containsSingleAmpersand (s : Bytes) : Bool := singleAmpersand false s

/-- `is_args_safe` -/
def isArgsSafe (base fullCmd : Bytes) : Bool :=
  if SameFold base (ascii "find") ∧ (containsStr fullCmd "-exec" ∨ containsStr fullCmd "-ok") then
    false
  else if SameFold base (ascii "git") ∧ (containsStr fullCmd " config" ∨
      containsStr fullCmd " alias" ∨ containsStr fullCmd " -c ") then
    false
  else true

/-! ## Parts of a command -/

/-- The first loop of `normalize_command`: `&&` and `||` are replaced. -/
def nullOperators : Bytes → Bytes
  | a :: b :: s =>
    if a = ch '&' ∧ b = ch '&' ∨ a = ch '|' ∧ b = ch '|' then 0 :: 0 :: nullOperators s
    else a :: nullOperators (b :: s)
  | s => s

/-- `normalize_command` -/
def normalizeCommand (cmd : Bytes) : Bytes :=
  (nullOperators (cmd.take maxAnalysisLen)).map fun b =>
    if b = ch '\n' ∨ b = ch ';' ∨ b = ch '|' then 0 else b

/-- The parts that the loops over `norm` stop at: each begins behind NULs and blanks and
ends at the next NUL. -/
def segmentLoop : ℕ → Bytes → List Bytes
  | 0, _ => []
  | fuel + 1, s =>
    let seg := s.dropWhile fun b => b = 0 ∨ isBlank b
    if seg = [] then []
    else seg.takeWhile (· ≠ 0) :: segmentLoop fuel ((seg.dropWhile (· ≠ 0)).drop 1)

def segments (norm : Bytes) : List Bytes := segmentLoop (norm.length + 1) norm

/-- The text up to the first space. -/
def firstWord (cmdPart : Bytes) : Bytes := cmdPart.takeWhile (· ≠ ch ' ')

/-- `base_name`: the base name of the first word in a buffer of 128 octets. -/
def baseName (cmdPart : Bytes) : Bytes := basenamePtr ((firstWord cmdPart).take 127)

/-! ## The policy -/

/-- The loop of `sc_policy_command_risk_level`. -/
def riskLoop : List Bytes → Bool → CommandRiskLevel
  | [], sawMedium => if sawMedium then .medium else .low
  | seg :: segs, sawMedium =>
    let cmdPart := skipEnvAssignments seg
    let lowerBase := (baseName cmdPart).map toLower
    if isHighRiskCommand lowerBase then .high
    else if containsStr cmdPart "rm -rf /" ∨ containsStr cmdPart "rm -fr /" then .high
    else
      let firstArg := (cmdPart.dropWhile (· ≠ ch ' ')).dropWhile (· = ch ' ')
      riskLoop segs (sawMedium || isMediumRiskCmd lowerBase firstArg)

/-- `sc_policy_command_risk_level` -/
def scPolicyCommandRiskLevel (command : Bytes) : CommandRiskLevel :=
  if command.length > maxAnalysisLen then .high
  else riskLoop (segments (normalizeCommand command)) false

/-- The tests of `sc_policy_is_command_allowed` that look at the text of the command alone. -/
def commandTextAllowed (command : Bytes) : Bool :=
  if command.length > maxAnalysisLen then false
  else if containsStr command "\u0060" ∨ containsStr command "$(" ∨
      containsStr command "$\x7b" then false
  else if containsStr command "<(" ∨ containsStr command ">(" then false
  else if containsStr command " tee " ∨ containsStr command "|tee" ∨ containsStr command "tee|" ∨
      ascii "tee " <+: command ∨ command.length ≥ 4 ∧ command = ascii "tee" then false
  else if containsSingleAmpersand command then false
  else if ch '>' ∈ command then false
  else if ch '|' ∈ command then false
  else true

/-- An entry of the allowlist lets the name through. -/
def entryMatches (base : Bytes) : Option CString → Bool
  | none => false
  | some a => a.octets = ascii "*" ∨ SameFold a.octets base

/-- The loop of `sc_policy_is_command_allowed`. -/
def allowedLoop (allowed : List (Option CString)) : List Bytes → Bool → Bool
  | [], hasCmd => hasCmd
  | seg :: segs, hasCmd =>
    let cmdPart := skipEnvAssignments seg
    if cmdPart ≠ seg then false
    else if (firstWord cmdPart).length = 0 then allowedLoop allowed segs hasCmd
    else if baseName cmdPart = [] then allowedLoop allowed segs hasCmd
    else if ¬ allowed.any (entryMatches (baseName cmdPart)) then false
    else if ¬ isArgsSafe (baseName cmdPart) cmdPart then false
    else allowedLoop allowed segs true

/-- `sc_policy_is_command_allowed` -/
def scPolicyIsCommandAllowed (p : SecurityPolicy) (command : CString) : Bool :=
  if p.autonomy = .locked then false
  else if ¬ commandTextAllowed command.octets then false
  else allowedLoop p.allowlist (segments (normalizeCommand command.octets)) false

/-- `sc_policy_validate_command`, with the risk that it reports. -/
def scPolicyValidateCommand (p : SecurityPolicy) (command : CString) (approved : Bool) :
    Except ScError CommandRiskLevel :=
  if ¬ scPolicyIsCommandAllowed p command then .error .securityCommandNotAllowed
  else
    let risk := scPolicyCommandRiskLevel command.octets
    if risk = .high ∧ p.blockHighRiskCommands then .error .securityHighRiskBlocked
    else if risk = .high ∧ p.autonomy = .supervised ∧ ¬ approved then
      .error .securityApprovalRequired
    else if risk = .medium ∧ p.autonomy = .supervised ∧ p.requireApprovalForMediumRisk ∧
        ¬ approved then
      .error .securityApprovalRequired
    else .ok risk

end SeaClaw.Security
