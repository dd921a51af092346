import SeaClaw.Core.Error
import SeaClaw.Lib.Strtol
import SeaClaw.Lib.Words

/-!
# Classifying an error by its text

`core/error.c` and `providers/error_classify.c`. The classes are read off a text: a status code of
three digits, or words that the services use. `reliable.c` has no text but that of the error code.
-/

namespace SeaClaw.Providers

open SeaClaw.Lib SeaClaw.Lib.Words

/-- `sc_error_string` -/
def scErrorString : ScError → Bytes
  | .outOfMemory => ascii "out of memory"
  | .invalidArgument => ascii "invalid argument"
  | .notFound => ascii "not found"
  | .alreadyExists => ascii "already exists"
  | .notSupported => ascii "not supported"
  | .permissionDenied => ascii "permission denied"
  | .timeout => ascii "timeout"
  | .io => ascii "I/O error"
  | .parse => ascii "parse error"
  | .configInvalid => ascii "invalid configuration"
  | .configNotFound => ascii "configuration not found"
  | .providerUnavailable => ascii "provider unavailable"
  | .providerAuth => ascii "provider authentication failed"
  | .providerRateLimited => ascii "provider rate limited"
  | .providerResponse => ascii "provider response error"
  | .channelSend => ascii "channel send failed"
  | .channelStart => ascii "channel start failed"
  | .channelNotConfigured => ascii "channel not configured"
  | .toolExecution => ascii "tool execution failed"
  | .toolValidation => ascii "tool input validation failed"
  | .toolNotFound => ascii "tool not found"
  | .memoryStore => ascii "memory store error"
  | .memoryRecall => ascii "memory recall error"
  | .memoryBackend => ascii "memory backend error"
  | .securityCommandNotAllowed => ascii "command not allowed"
  | .securityHighRiskBlocked => ascii "high risk command blocked"
  | .securityApprovalRequired => ascii "approval required"
  | .securityRateLimited => ascii "security rate limited"
  | .securityLockout => ascii "security lockout"
  | .peripheralNotConnected => ascii "peripheral not connected"
  | .peripheralIo => ascii "peripheral I/O error"
  | .peripheralFlashFailed => ascii "peripheral flash failed"
  | .peripheralDeviceNotFound => ascii "peripheral device not found"
  | .tunnelStartFailed => ascii "tunnel start failed"
  | .tunnelUrlNotFound => ascii "tunnel URL not found"
  | .gatewayRateLimited => ascii "gateway rate limited"
  | .gatewayBodyTooLarge => ascii "gateway body too large"
  | .gatewayAuth => ascii "gateway authentication failed"
  | .cryptoEncrypt => ascii "encryption failed"
  | .cryptoDecrypt => ascii "decryption failed"
  | .cryptoHmac => ascii "HMAC failed"
  | .jsonParse => ascii "JSON parse error"
  | .jsonType => ascii "JSON type mismatch"
  | .jsonDepth => ascii "JSON max depth exceeded"
  | .internal => ascii "internal error"
  | .subagentTooMany => ascii "too many concurrent subagents"
  | .cancelled => ascii "cancelled"

/-! ## The classes -/

/-- Whether a text starts with a needle in either letter case, octet by octet. -/
def foldMatches : (needle text : Bytes) → Bool
  | [], _ => true
  | _ :: _, [] => false
  | a :: needle, b :: text => toLower b = toLower a && foldMatches needle text

/-- `contains_fold` -/
def containsFold (needle : Bytes) : (haystack : Bytes) → Bool
  | [] => needle.isEmpty
  | b :: haystack => foldMatches needle (b :: haystack) || containsFold needle haystack

/-- `sc_error_is_non_retryable`: a run of exactly three digits is a status code. -/
def scErrorIsNonRetryable (msg : Bytes) : Bool :=
  (words (fun b => !isDigit b) msg).any fun run =>
    run.length = 3 && 400 ≤ strtol10 run && strtol10 run < 500 && strtol10 run ≠ 429 &&
      strtol10 run ≠ 408

/-- `sc_error_is_context_exhausted` -/
def scErrorIsContextExhausted (msg : Bytes) : Bool :=
  let has := fun needle => containsFold (ascii needle) (msg.take 512)
  (has "context" && (has "length" || has "maximum" || has "window" || has "exceed")) ||
    (has "token" && (has "limit" || has "too many" || has "maximum" || has "exceed")) ||
    (has "413" && has "too large")

/-- `sc_error_is_rate_limited` -/
def scErrorIsRateLimited (msg : Bytes) : Bool :=
  let has := fun needle => containsFold (ascii needle) (msg.take 512)
  has "ratelimited" || has "rate limited" || has "rate_limit" || has "too many requests" ||
    has "quota exceeded" || has "throttle" ||
    (has "429" && (has "rate" || has "limit" || has "too many"))

/-! ## The texts of the codes -/

/-- The octets of a literal, character by character. -/
theorem ascii_ofList (l : List Char) : ascii (String.ofList l) = l.map ch := by
  rw [ascii, String.toList_ofList]

/-- A text without digits has no status code. -/
theorem scErrorIsNonRetryable_of_no_digit {msg : Bytes} (h : ∀ b ∈ msg, isDigit b = false) :
    scErrorIsNonRetryable msg = false := by
  have hnone : words (fun b => !isDigit b) msg = [] := by
    rw [← words_dropWhile]
    have hall : msg.dropWhile (fun b => !isDigit b) = [] := by
      rw [List.dropWhile_eq_nil_iff]
      intro b hb
      simp [h b hb]
    rw [hall, words_nil]
  rw [scErrorIsNonRetryable, hnone, List.any_nil]

/-- No text of a code has a status code in it. -/
theorem scErrorIsNonRetryable_string (e : ScError) :
    scErrorIsNonRetryable (scErrorString e) = false := by
  apply scErrorIsNonRetryable_of_no_digit
  apply forall_mem_of_all
  cases e <;> rw [scErrorString, ascii_ofList] <;> decide

/-- No text of a code speaks of an exhausted context. -/
theorem scErrorIsContextExhausted_string (e : ScError) :
    scErrorIsContextExhausted (scErrorString e) = false := by
  rw [scErrorIsContextExhausted]
  dsimp only
  rw [ascii_ofList, ascii_ofList, ascii_ofList, ascii_ofList, ascii_ofList, ascii_ofList,
    ascii_ofList, ascii_ofList, ascii_ofList, ascii_ofList]
  cases e <;> rw [scErrorString, ascii_ofList] <;> decide

/-- Three codes are rate limits by their texts. -/
theorem scErrorIsRateLimited_string (e : ScError) :
    scErrorIsRateLimited (scErrorString e) = true ↔
      e = .providerRateLimited ∨ e = .securityRateLimited ∨ e = .gatewayRateLimited := by
  rw [scErrorIsRateLimited]
  dsimp only
  rw [ascii_ofList, ascii_ofList, ascii_ofList, ascii_ofList, ascii_ofList, ascii_ofList,
    ascii_ofList, ascii_ofList, ascii_ofList, ascii_ofList]
  cases e <;> rw [scErrorString, ascii_ofList] <;> decide

/-- Every text fits into the stored message. -/
theorem length_scErrorString_lt (e : ScError) : (scErrorString e).length < 256 := by
  cases e <;> rw [scErrorString, ascii_ofList, List.length_map] <;> decide

end SeaClaw.Providers
