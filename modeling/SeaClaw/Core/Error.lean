import SeaClaw.Lib.Bytes

/-!
# Error codes

The codes of `sc_error_t` in their order. Success is not among them: a function
that returns `SC_OK` returns a value here.
-/

namespace SeaClaw

/-- `sc_error_t` without `SC_OK`. -/
inductive ScError where
  | outOfMemory | invalidArgument | notFound | alreadyExists | notSupported
  | permissionDenied | timeout | io | parse
  | configInvalid | configNotFound
  | providerUnavailable | providerAuth | providerRateLimited | providerResponse
  | channelSend | channelStart | channelNotConfigured
  | toolExecution | toolValidation | toolNotFound
  | memoryStore | memoryRecall | memoryBackend
  | securityCommandNotAllowed | securityHighRiskBlocked | securityApprovalRequired
  | securityRateLimited | securityLockout
  | peripheralNotConnected | peripheralIo | peripheralFlashFailed | peripheralDeviceNotFound
  | tunnelStartFailed | tunnelUrlNotFound
  | gatewayRateLimited | gatewayBodyTooLarge | gatewayAuth
  | cryptoEncrypt | cryptoDecrypt | cryptoHmac
  | jsonParse | jsonType | jsonDepth
  | internal | subagentTooMany | cancelled
  deriving DecidableEq, Repr

end SeaClaw
