import DeepSeekWebToApi.Lib.Unicode

/- Accounts and their identities (`internal/config/mobile.go`, `account.go`, the
   normalisation half of `account_sqlite.go`).

   An account is named by its e-mail or, without one, by its mobile number. Mobile
   numbers are compared by `canonicalMobileKey`, which keeps the digits of any text
   and puts a country code in front; it is also applied to e-mails, and to a text
   without digits it answers the empty key. The clock the cooldowns are compared
   with is the parameter `now` (`time.Now().Unix()`). -/
namespace DeepSeekWebToApi.Config
open GoStrings

/-! Mobile numbers. All runes the source tests for are ASCII, so the loops over the
    runes of a number are loops over its bytes. -/

def isDigit (b : UInt8) : Bool := within 0x30 0x39 b

def isMobileSeparator (b : UInt8) : Bool := (lit " \t\n\r-()./").contains b

/-- Whether the first byte that is no separator is a plus sign. -/
def leadingPlus : Bytes → Bool
  | [] => false
  | b :: s =>
    if isDigit b then false
    else if isMobileSeparator b then leadingPlus s
    else b == '+'.toUInt8

def extractMobileDigits (raw : Bytes) : Bytes × Bool :=
  let s := trimSpace raw
  if s = [] then ([], false) else (s.filter isDigit, leadingPlus s)

def isChinaMainlandMobileDigits (digits : Bytes) : Bool :=
  match digits with
  | d0 :: d1 :: _ => digits.length == 11 && d0 == '1'.toUInt8 && within 0x33 0x39 d1
  | _ => false

def isChinaMobileWithCountryCode (digits : Bytes) : Bool :=
  digits.length == 13 && hasPrefix digits (lit "86") &&
    isChinaMainlandMobileDigits (digits.drop 2)

/-- The storage form of a mobile number: a plus sign, a country code, digits. -/
def normalizeMobileForStorage (raw : Bytes) : Bytes :=
  let (digits, hasPlus) := extractMobileDigits raw
  if digits = [] then []
  else if hasPlus then lit "+" ++ digits
  else if isChinaMobileWithCountryCode digits then lit "+86" ++ digits.drop 2
  else if isChinaMainlandMobileDigits digits then lit "+86" ++ digits
  else lit "+" ++ digits

/-- The key mobile numbers are matched by. -/
def canonicalMobileKey (raw : Bytes) : Bytes := normalizeMobileForStorage raw

example : canonicalMobileKey (lit "86 138-0013-8000") = lit "+8613800138000" := by decide
example : canonicalMobileKey (lit "alice@example.com") = [] := by decide

/-! Accounts. -/

structure Account where
  name : Bytes := []
  remark : Bytes := []
  email : Bytes := []
  mobile : Bytes := []
  password : Bytes := []
  token : Bytes := []
  proxyID : Bytes := []
  proxyAutoRoute : Bool := false
  disabled : Bool := false
  disabledReason : Bytes := []
  disabledAtUnix : Int := 0
  cooldownState : Bytes := []
  cooldownUntilUnix : Int := 0
  deriving DecidableEq, Repr

def looksLikeEmailIdentifier (raw : Bytes) : Bool := contains (trimSpace raw) (lit "@")

def normalizeAccountIdentity (a : Account) : Account :=
  let email := trimSpace a.email
  let mobile := trimSpace a.mobile
  if email = [] ∧ looksLikeEmailIdentifier mobile then { a with email := mobile, mobile := [] }
  else { a with email := email, mobile := normalizeMobileForStorage mobile }

/-- The name an account is held under: its e-mail or, without one, its mobile number. -/
def Account.identifier (a : Account) : Bytes :=
  let a := normalizeAccountIdentity a
  if trimSpace a.email ≠ [] then trimSpace a.email
  else if trimSpace a.mobile ≠ [] then trimSpace a.mobile
  else []

def accountCooldownRateLimited : Bytes := lit "rate_limited"
def accountCooldownTemporarilyMuted : Bytes := lit "temporarily_muted"

/-- Only known cooldowns that have not run out are kept. -/
def normalizeAccountCooldown (now : Int) (state : Bytes) (untilUnix : Int) : Bytes × Int :=
  let state := toLower (trimSpace state)
  if state ≠ accountCooldownRateLimited ∧ state ≠ accountCooldownTemporarilyMuted then ([], 0)
  else if untilUnix ≤ now then ([], 0)
  else (state, untilUnix)

def normalizeAccountConfig (now : Int) (acc : Account) : Account :=
  let acc := normalizeAccountIdentity acc
  let cooldown := normalizeAccountCooldown now acc.cooldownState acc.cooldownUntilUnix
  { acc with
    name := trimSpace acc.name
    remark := trimSpace acc.remark
    password := trimSpace acc.password
    token := trimSpace acc.token
    proxyID := trimSpace acc.proxyID
    disabledReason := if acc.disabled then trimSpace acc.disabledReason else []
    disabledAtUnix := if acc.disabled then acc.disabledAtUnix else 0
    cooldownState := cooldown.1
    cooldownUntilUnix := cooldown.2 }

def accountConfigDedupeKey (acc : Account) : Bytes :=
  if trimSpace acc.email ≠ [] then lit "email:" ++ trimSpace acc.email
  else if canonicalMobileKey acc.mobile ≠ [] then lit "mobile:" ++ canonicalMobileKey acc.mobile
  else []

/-- The loop of `normalizeAndDedupeAccountConfig`: accounts without a key and accounts whose
    key was seen are dropped. -/
def dedupeFrom (now : Int) : List Bytes → List Account → List Account
  | _, [] => []
  | seen, acc :: rest =>
    let acc := normalizeAccountConfig now acc
    let key := accountConfigDedupeKey acc
    if key = [] then dedupeFrom now seen rest
    else if key ∈ seen then dedupeFrom now seen rest
    else acc :: dedupeFrom now (key :: seen) rest

def normalizeAndDedupeAccountConfig (now : Int) (accounts : List Account) : List Account :=
  dedupeFrom now [] accounts

end DeepSeekWebToApi.Config
