import DeepSeekWebToApi.Lib.Http
import DeepSeekWebToApi.Lib.Net

/- The client address of a request (`internal/requestmeta`). Forwarding headers count
   only when the TCP peer is a trusted proxy. The X-Forwarded-For lines are walked in
   the order they arrived and the hops of a line from the right, and the first line that
   holds any address decides. `client_ip_iff_first_line` says when that is the nearest
   untrusted hop of all lines together. The package variable with the trusted ranges is
   the argument `trusted`. -/
namespace DeepSeekWebToApi.Requestmeta
open GoStrings GoNet GoHttp

/-- What `ClientIP` reads of a request. -/
structure Request where
  remoteAddr : Bytes
  header : Header

def defaultTrustedProxyCIDRs : List Bytes := [lit "127.0.0.0/8", lit "::1/128"]

/-- A range of no or of zero bits is left out: it would trust every peer. -/
def parseTrustedNets (raw : List Bytes) : List IPNet :=
  raw.filterMap (fun c =>
    match parseCIDR (trimSpace c) with
    | some (_, ipnet) => if maskOnes ipnet.mask = 0 then none else some ipnet
    | none => none)

/-- `SetTrustedProxyCIDRs`: the ranges the package works with afterwards. -/
def setTrustedProxyCIDRs (cidrs : List Bytes) : List IPNet :=
  if cidrs.length = 0 then parseTrustedNets defaultTrustedProxyCIDRs else parseTrustedNets cidrs

def isTrustedProxy (trusted : List IPNet) : Option IP → Bool
  | none => false
  | some ip => trusted.any (fun n => n.contains ip)

def brackets : List Nat := runes "[]"

/-- `strings.Trim` of the brackets around an IPv6 host. -/
def trimBrackets (s : Bytes) : Bytes := trimRight (trimLeft s brackets) brackets

def parsePeerIP (remoteAddr : Bytes) : Option IP :=
  let host := match splitHostPort (trimSpace remoteAddr) with
    | some (host, _) => host
    | none => trimSpace remoteAddr
  parseIP (trimBrackets host)

/-- The address of an entry in canonical form; no text if there is none. -/
def cleanIP (raw : Bytes) : Bytes :=
  let raw := trimSpace raw
  if raw = [] then []
  else
    let host := match splitHostPort raw with
      | some (host, _) => host
      | none => raw
    ((parseIP (trimBrackets host)).map IP.string).getD []

section
variable (trusted : List IPNet)

/-- The address of a hop, if it has one and it is not a trusted proxy's. -/
def untrustedHop (part : Bytes) : Option Bytes :=
  let ip := cleanIP part
  if ip = [] then none
  else
    match parseIP ip with
    | none => none
    | some parsed => if isTrustedProxy trusted (some parsed) then none else some ip

/-- The address of a hop, if it has one. -/
def validHop (part : Bytes) : Option Bytes := if cleanIP part = [] then none else some (cleanIP part)

/-- The rightmost hop that is not a trusted proxy. -/
def nearestUntrusted (parts : List Bytes) : Option Bytes := parts.reverse.findSome? (untrustedHop trusted)

/-- The hops of one X-Forwarded-For line. -/
def hops (raw : Bytes) : List Bytes := split 0x2C raw

/-- What one X-Forwarded-For line decides: its rightmost untrusted hop or, when every hop is
    trusted, its leftmost one. -/
def lineIP (raw : Bytes) : Option Bytes :=
  (nearestUntrusted trusted (hops raw)).or ((hops raw).findSome? validHop)

def forwardedFor (r : Request) : List Bytes := r.header.values (lit "X-Forwarded-For")

/-- The address the connection itself gives. -/
def peerAddress (r : Request) : Bytes :=
  match parsePeerIP r.remoteAddr with
  | some ip => ip.string
  | none => cleanIP r.remoteAddr

/-- A header that holds one address. -/
def singleIP (r : Request) (header : Bytes) : Option Bytes :=
  let v := trimSpace (r.header.get header)
  if v = [] then none else if cleanIP v = [] then none else some (cleanIP v)

def clientIP (r : Request) : Bytes :=
  if isTrustedProxy trusted (parsePeerIP r.remoteAddr) then
    (([lit "CF-Connecting-IP", lit "X-Real-IP"].findSome? (singleIP r)).or
      ((forwardedFor r).findSome? (lineIP trusted))).getD (peerAddress r)
  else peerAddress r

/-- The hops of all X-Forwarded-For lines, joined in order. -/
def hopList (r : Request) : List Bytes := hops (join [0x2C] (forwardedFor r))

/-- The rightmost untrusted hop of all lines is the client. -/
def NearestHopDecides (r : Request) : Prop :=
  ∀ before hop after ip, hopList r = before ++ hop :: after →
    untrustedHop trusted hop = some ip → (∀ h ∈ after, untrustedHop trusted h = none) →
    clientIP trusted r = ip

/-- The nearest untrusted hop of the first line with an address is that of all lines. -/
def FirstLineDecides (lines : List Bytes) : Prop :=
  (lines.find? (fun raw => ((hops raw).findSome? validHop).isSome)).bind
    (fun raw => nearestUntrusted trusted (hops raw)) = nearestUntrusted trusted (lines.flatMap hops)

instance (lines : List Bytes) : Decidable (FirstLineDecides trusted lines) :=
  inferInstanceAs (Decidable (_ = _))

variable {trusted}

theorem nearestUntrusted_eq_some_iff {parts : List Bytes} {ip : Bytes} :
    nearestUntrusted trusted parts = some ip ↔
      ∃ before hop after, parts = before ++ hop :: after ∧ untrustedHop trusted hop = some ip ∧
        ∀ h ∈ after, untrustedHop trusted h = none := by
  rw [nearestUntrusted, List.findSome?_eq_some_iff]
  constructor
  · rintro ⟨after, hop, before, hparts, hhop, hafter⟩
    refine ⟨before.reverse, hop, after.reverse, ?_, hhop, fun h hh => hafter h (List.mem_reverse.mp hh)⟩
    simpa using congrArg List.reverse hparts
  · rintro ⟨before, hop, after, rfl, hhop, hafter⟩
    exact ⟨after.reverse, hop, before.reverse, by simp, hhop,
      fun h hh => hafter h (List.mem_reverse.mp hh)⟩

theorem nearestUntrusted_eq_none_iff {parts : List Bytes} :
    nearestUntrusted trusted parts = none ↔ ∀ h ∈ parts, untrustedHop trusted h = none := by
  simp [nearestUntrusted, List.findSome?_eq_none_iff]

/-- An untrusted hop is its own clean address, and the address is not trusted. -/
theorem untrustedHop_eq_some_iff {part ip : Bytes} : untrustedHop trusted part = some ip ↔
    cleanIP part = ip ∧ ip ≠ [] ∧ ∃ parsed, parseIP ip = some parsed ∧
      isTrustedProxy trusted (some parsed) = false := by
  simp only [untrustedHop]
  constructor
  · intro h
    split_ifs at h with hnil
    split at h
    · cases h
    · next parsed hparsed =>
      split_ifs at h with htrusted
      obtain rfl := Option.some.inj h
      exact ⟨rfl, hnil, parsed, hparsed, by simpa using htrusted⟩
  · rintro ⟨rfl, hne, parsed, hparsed, htrusted⟩
    rw [if_neg hne, hparsed]
    simp [htrusted]

theorem validHop_of_untrustedHop {part ip : Bytes} (h : untrustedHop trusted part = some ip) :
    validHop part = some ip := by
  obtain ⟨rfl, hne, _⟩ := untrustedHop_eq_some_iff.mp h
  rw [validHop, if_neg hne]

/-- Whether a hop is untrusted depends on its clean address only. -/
theorem untrustedHop_of_validHop {part hop ip : Bytes} (hp : validHop part = some ip)
    (hh : untrustedHop trusted hop = some ip) : untrustedHop trusted part = some ip := by
  rw [validHop] at hp
  split_ifs at hp
  exact untrustedHop_eq_some_iff.mpr
    ⟨Option.some.inj hp, (untrustedHop_eq_some_iff.mp hh).2⟩

/-- A line decides whenever it holds an address. -/
theorem lineIP_isSome (raw : Bytes) :
    (lineIP trusted raw).isSome = ((hops raw).findSome? validHop).isSome := by
  rw [lineIP]
  cases hn : nearestUntrusted trusted (hops raw) with
  | none => rfl
  | some ip =>
    obtain ⟨before, hop, after, heq, hhop, _⟩ := nearestUntrusted_eq_some_iff.mp hn
    have hsome : ((hops raw).findSome? validHop).isSome = true :=
      List.findSome?_isSome_iff.mpr
        ⟨hop, by simp [heq], by simp [validHop_of_untrustedHop hhop]⟩
    rw [hsome]
    rfl

theorem findSome?_lineIP : ∀ lines : List Bytes, lines.findSome? (lineIP trusted) =
    (lines.find? (fun raw => ((hops raw).findSome? validHop).isSome)).bind (lineIP trusted)
  | [] => rfl
  | raw :: lines => by
    rw [List.findSome?_cons, List.find?_cons, ← @lineIP_isSome trusted]
    cases h : lineIP trusted raw with
    | none => exact findSome?_lineIP lines
    | some ip => simp [h]

theorem nearestUntrusted_hopList (r : Request) : nearestUntrusted trusted (hopList r) =
    nearestUntrusted trusted ((forwardedFor r).flatMap hops) := by
  by_cases h : forwardedFor r = []
  · -- without a line the hop list is one empty entry
    have hempty : cleanIP [] = [] := by decide
    rw [hopList, h]
    simp [nearestUntrusted, hops, split, join, untrustedHop, hempty]
  · exact congrArg _ (split_join 0x2C h)

/-- A request whose nearest untrusted hop is `ip` is decided by it exactly if `ip` is the client. -/
theorem nearestHopDecides_iff {r : Request} {ip : Bytes}
    (h : nearestUntrusted trusted (hopList r) = some ip) :
    NearestHopDecides trusted r ↔ clientIP trusted r = ip := by
  constructor
  · intro hdec
    obtain ⟨before, hop, after, heq, hhop, hafter⟩ := nearestUntrusted_eq_some_iff.mp h
    exact hdec before hop after ip heq hhop hafter
  · intro hip before hop after ip' heq hhop hafter
    have h' := nearestUntrusted_eq_some_iff.mpr ⟨before, hop, after, heq, hhop, hafter⟩
    exact hip.trans (Option.some.inj (h.symm.trans h'))

theorem clientIP_forwarded {r : Request}
    (hpeer : isTrustedProxy trusted (parsePeerIP r.remoteAddr) = true)
    (hcf : r.header.values (lit "CF-Connecting-IP") = [])
    (hreal : r.header.values (lit "X-Real-IP") = []) :
    clientIP trusted r = ((forwardedFor r).findSome? (lineIP trusted)).getD (peerAddress r) := by
  have hempty : trimSpace [] = [] := by decide
  have hnone : ∀ header, r.header.values header = [] → singleIP r header = none := by
    intro header hv
    simp [singleIP, Header.get, hv, hempty]
  simp [clientIP, hpeer, hnone _ hcf, hnone _ hreal]

/-- The nearest untrusted hop among all lines lies in a line with an address. -/
theorem find?_valid_isSome {lines : List Bytes} {ip : Bytes}
    (h : nearestUntrusted trusted (lines.flatMap hops) = some ip) :
    ∃ raw, lines.find? (fun raw => ((hops raw).findSome? validHop).isSome) = some raw := by
  obtain ⟨before, hop, after, heq, hhop, _⟩ := nearestUntrusted_eq_some_iff.mp h
  have hmem : hop ∈ lines.flatMap hops := by simp [heq]
  obtain ⟨raw, hraw, hin⟩ := List.mem_flatMap.mp hmem
  refine Option.isSome_iff_exists.mp (List.find?_isSome.mpr ⟨raw, hraw, ?_⟩)
  exact List.findSome?_isSome_iff.mpr ⟨hop, hin, by simp [validHop_of_untrustedHop hhop]⟩

/-- What the first line with an address decides is the nearest untrusted hop of all lines exactly
    if it is that line's own nearest untrusted hop. -/
theorem lineIP_eq_iff {lines : List Bytes} {raw ip : Bytes}
    (h : nearestUntrusted trusted (lines.flatMap hops) = some ip)
    (hvalid : ((hops raw).findSome? validHop).isSome = true) :
    lineIP trusted raw = some ip ↔ nearestUntrusted trusted (hops raw) = some ip := by
  rw [lineIP]
  cases hn : nearestUntrusted trusted (hops raw) with
  | some own => simp
  | none =>
    obtain ⟨first, hfirst⟩ := Option.isSome_iff_exists.mp hvalid
    rw [hfirst, Option.none_or]
    refine iff_of_false (fun heq => ?_) (by simp)
    -- a line without an untrusted hop answers with a trusted address
    obtain rfl := Option.some.inj heq
    obtain ⟨_, hop, _, _, hhop, _⟩ := nearestUntrusted_eq_some_iff.mp h
    obtain ⟨part, hpart, hvp⟩ := List.exists_of_findSome?_eq_some hfirst
    have hun := untrustedHop_of_validHop hvp hhop
    rw [nearestUntrusted_eq_none_iff.mp hn part hpart] at hun
    cases hun

/-- With a trusted peer and no single-address header, the nearest untrusted hop of all
    X-Forwarded-For lines is the client exactly if the first line with an address says so. -/
theorem client_ip_iff_first_line {r : Request}
    (hpeer : isTrustedProxy trusted (parsePeerIP r.remoteAddr) = true)
    (hcf : r.header.values (lit "CF-Connecting-IP") = [])
    (hreal : r.header.values (lit "X-Real-IP") = []) :
    NearestHopDecides trusted r ↔ FirstLineDecides trusted (forwardedFor r) := by
  have hlist := @nearestUntrusted_hopList trusted r
  rw [FirstLineDecides, ← hlist]
  cases hnear : nearestUntrusted trusted (hopList r) with
  | none =>
    have hall := nearestUntrusted_eq_none_iff.mp (hlist.symm.trans hnear)
    constructor
    · intro _
      cases hfind : (forwardedFor r).find? (fun raw => ((hops raw).findSome? validHop).isSome) with
      | none => rfl
      | some raw =>
        exact nearestUntrusted_eq_none_iff.mpr (fun hop hin =>
          hall hop (List.mem_flatMap.mpr ⟨raw, List.mem_of_find?_eq_some hfind, hin⟩))
    · intro _ before hop after ip heq hhop _
      have hnone := nearestUntrusted_eq_none_iff.mp hnear hop (by simp [heq])
      rw [hnone] at hhop
      cases hhop
  | some ip =>
    have hflat := hlist.symm.trans hnear
    obtain ⟨raw, hfind⟩ := find?_valid_isSome hflat
    have hvalid : ((hops raw).findSome? validHop).isSome = true := by
      simpa using List.find?_some hfind
    rw [nearestHopDecides_iff hnear, clientIP_forwarded hpeer hcf hreal, findSome?_lineIP, hfind]
    simp only [Option.bind_some]
    rw [← lineIP_eq_iff hflat hvalid]
    cases hline : lineIP trusted raw with
    | none =>
      have hsome := @lineIP_isSome trusted raw
      rw [hline, hvalid] at hsome
      cases hsome
    | some own => simp

/-- A client behind a proxy on the same host: the line it forged stands before the line the proxy
    added. -/
def twoLines (forged : String) : Request where
  remoteAddr := lit "127.0.0.1:52000"
  header := [(lit "X-Forwarded-For", [lit forged, lit "198.51.100.7"])]

/-- One line with a forged entry, the client's address and a trusted proxy. -/
def oneLine : Request where
  remoteAddr := lit "[::1]:52000"
  header := [(lit "X-Forwarded-For", [lit "203.0.113.9, 198.51.100.7:4711, bad, 127.0.0.2"])]

theorem client_ip_one_line : clientIP (setTrustedProxyCIDRs []) oneLine = lit "198.51.100.7" := by
  have h := (client_ip_iff_first_line (r := oneLine) (by decide +kernel) (by decide +kernel)
    (by decide +kernel)).mpr (show FirstLineDecides (setTrustedProxyCIDRs []) _ by decide +kernel)
  exact h [lit "203.0.113.9"] (lit " 198.51.100.7:4711") [lit " bad", lit " 127.0.0.2"] _
    (by decide +kernel) (by decide +kernel) (by decide +kernel)

/-- The forged line decides: with the same hops from the nearest untrusted one on, two requests have
    two clients, and neither is that hop. -/
theorem forged_line_decides :
    nearestUntrusted (setTrustedProxyCIDRs []) (hopList (twoLines "203.0.113.9")) =
      some (lit "198.51.100.7") ∧
    ¬ NearestHopDecides (setTrustedProxyCIDRs []) (twoLines "203.0.113.9") ∧
    clientIP (setTrustedProxyCIDRs []) (twoLines "203.0.113.9") = lit "203.0.113.9" ∧
    clientIP (setTrustedProxyCIDRs []) (twoLines "192.0.2.1") = lit "192.0.2.1" := by
  have hnear : nearestUntrusted (setTrustedProxyCIDRs []) (hopList (twoLines "203.0.113.9")) =
      some (lit "198.51.100.7") := by decide +kernel
  refine ⟨hnear, ?_, by decide +kernel, by decide +kernel⟩
  rw [nearestHopDecides_iff hnear]
  decide +kernel

end

end DeepSeekWebToApi.Requestmeta
