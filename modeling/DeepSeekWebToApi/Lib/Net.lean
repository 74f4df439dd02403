import DeepSeekWebToApi.Lib.Json
import DeepSeekWebToApi.Lib.Text

/- Addresses as Go's `net` package reads and writes them. An address is its bytes, four or
   sixteen; `net.ParseIP` gives sixteen, an IPv4 address in the mapped form. An address
   with a zone is no address for `net.ParseIP` and `net.ParseCIDR`, so zones are refused
   where an address is read. -/
namespace GoNet
open GoStrings GoJson

abbrev IP := List UInt8

/-- `v4InV6Prefix`. -/
def v4InV6Prefix : List UInt8 := List.replicate 10 0 ++ [0xFF, 0xFF]

/-- `netip.parseIPv4Fields`: `val` and `digLen` are the value and the digits of the octet that
    is being read. -/
def parseIPv4Fields : List UInt8 → Nat → Nat → Bytes → Option (List UInt8)
  | fields, val, _, [] => if fields.length < 3 then none else some (fields ++ [val.toUInt8])
  | fields, val, digLen, b :: s =>
    if within 0x30 0x39 b then
      if digLen = 1 ∧ val = 0 then none
      else if 255 < val * 10 + (b.toNat - 0x30) then none
      else parseIPv4Fields fields (val * 10 + (b.toNat - 0x30)) (digLen + 1) s
    else if b = 0x2E then
      -- `.1`, `1..2` and `1.` have an octet without a digit
      if digLen = 0 ∨ s = [] then none
      else if fields.length = 3 then none
      else parseIPv4Fields (fields ++ [val.toUInt8]) 0 0 s
    else none

/-- The hexadecimal digits at the front of a group: how many, their value and what follows. -/
def hexGroup : Nat → Nat → Bytes → Option (Nat × Nat × Bytes)
  | off, acc, [] => some (off, acc, [])
  | off, acc, b :: s =>
    match hexValue b with
    | some d => if 3 < off then none else hexGroup (off + 1) (acc * 16 + d) s
    | none => some (off, acc, b :: s)

/-- The loop of `netip.parseIPv6` over at most `n` groups: the bytes read, where the ellipsis
    stands among them and the rest of the text. -/
def parseGroups : Nat → List UInt8 → Option Nat → Bytes →
    Option (List UInt8 × Option Nat × Bytes)
  | 0, ip, ellipsis, s => some (ip, ellipsis, s)
  | n + 1, ip, ellipsis, s =>
    match hexGroup 0 0 s with
    | none => none
    | some (off, acc, rest) =>
      let saved := ip ++ [(acc / 256).toUInt8, (acc % 256).toUInt8]
      if off = 0 then none
      else
        match rest with
        | [] => some (saved, ellipsis, [])
        | b :: more =>
          if b = 0x2E then
            if ellipsis.isNone ∧ ip.length ≠ 12 then none
            else if 16 < ip.length + 4 then none
            else (parseIPv4Fields [] 0 0 s).map (fun fields => (ip ++ fields, ellipsis, []))
          else if b = 0x3A then
            match more with
            | [] => none
            | c :: after =>
              if c = 0x3A then
                if ellipsis.isSome then none
                else if after = [] then some (saved, some saved.length, [])
                else parseGroups n saved (some saved.length) after
              else parseGroups n saved ellipsis more
          else none

/-- The zeros an ellipsis stands for; without one the address has to be complete. -/
def expandEllipsis : List UInt8 × Option Nat × Bytes → Option (List UInt8)
  | (_, _, _ :: _) => none
  | (ip, some place, []) =>
    if ip.length < 16 then
      some (ip.take place ++ List.replicate (16 - ip.length) 0 ++ ip.drop place)
    else none
  | (ip, none, []) => if ip.length < 16 then none else some ip

/-- `netip.parseIPv6` for a text without a zone. -/
def parseIPv6 (s : Bytes) : Option (List UInt8) :=
  if hasPrefix s [0x3A, 0x3A] then
    if s.length = 2 then some (List.replicate 16 0)
    else (parseGroups 8 [] (some 0) (s.drop 2)).bind expandEllipsis
  else (parseGroups 8 [] none s).bind expandEllipsis

/-- `netip.ParseAddr` for an address without a zone: four bytes or sixteen. -/
def parseAddr (s : Bytes) : Option (List UInt8) :=
  if s.contains 0x25 then none
  else
    match s.find? (fun b => b = 0x2E || b = 0x3A) with
    | some b => if b = 0x2E then parseIPv4Fields [] 0 0 s else parseIPv6 s
    | none => none

/-- `netip.Addr.As16`. -/
def as16 (addr : List UInt8) : IP := if addr.length = 4 then v4InV6Prefix ++ addr else addr

/-- `net.ParseIP`. -/
def parseIP (s : Bytes) : Option IP := (parseAddr s).map as16

/-- `net.IP.To4`. -/
def IP.to4 (ip : IP) : Option IP :=
  if ip.length = 4 then some ip
  else if ip.length = 16 ∧ ip.take 12 = v4InV6Prefix then some (ip.drop 12)
  else none

/-- A number of at most four hexadecimal digits without leading zeros. -/
def hexText (n : Nat) : Bytes :=
  (if 0x1000 ≤ n then [hexDigit (n / 0x1000)] else []) ++
    (if 0x100 ≤ n then [hexDigit (n / 0x100 % 16)] else []) ++
    (if 0x10 ≤ n then [hexDigit (n / 0x10 % 16)] else []) ++ [hexDigit (n % 16)]

/-- The groups of a sixteen-byte address. -/
def groupsOf : List UInt8 → List Nat
  | a :: b :: ip => (a.toNat * 256 + b.toNat) :: groupsOf ip
  | _ => []

/-- The first longest run of at least two zero groups: its start and its end. -/
def zeroRun (groups : List Nat) : Nat × Nat :=
  (List.range groups.length).foldl (fun best i =>
    let l := ((groups.drop i).takeWhile (· = 0)).length
    if 2 ≤ l ∧ best.2 - best.1 < l then (i, i + l) else best) (255, 255)

/-- `netip.Addr.appendTo6`. -/
def text6 (groups : List Nat) : Bytes :=
  let run := zeroRun groups
  let joined := fun gs => join [0x3A] (gs.map hexText)
  if run.1 = 255 then joined groups
  else joined (groups.take run.1) ++ [0x3A, 0x3A] ++ joined (groups.drop run.2)

/-- `net.IP.String` for an address of four or sixteen bytes. -/
def IP.string (ip : IP) : Bytes :=
  match ip.to4 with
  | some p4 => join [0x2E] (p4.map (fun b => lit (toString b.toNat)))
  | none => text6 (groupsOf ip)

example : (parseIP (lit "2001:DB8::1:0:0:7")).map IP.string = some (lit "2001:db8::1:0:0:7") := by
  decide +kernel
example : (parseIP (lit "::ffff:10.0.0.1")).map IP.string = some (lit "10.0.0.1") := by
  decide +kernel
example : (["1.2.3", "1.02.3.4", "1.2.3.256", ":::", "1::2::3", "fe80::1%eth0", ""].map
    (fun s => parseIP (lit s))).all Option.isNone = true := by decide +kernel

/-- `net.SplitHostPort`: the host and the port. -/
def splitHostPort (hostport : Bytes) : Option (Bytes × Bytes) :=
  match lastIndex hostport [0x3A] with
  | none => none
  | some i =>
    if hostport.head? = some 0x5B then
      -- the first `]` has to stand right before the last `:`
      match hostport.findIdx? (· = 0x5D) with
      | none => none
      | some close =>
        if close + 1 ≠ i then none
        else if (hostport.drop 1).contains 0x5B then none
        else if (hostport.drop (close + 1)).contains 0x5D then none
        else some ((hostport.take close).drop 1, hostport.drop (i + 1))
    else if (hostport.take i).contains 0x3A then none
    else if hostport.contains 0x5B || hostport.contains 0x5D then none
    else some (hostport.take i, hostport.drop (i + 1))

example : splitHostPort (lit "[::1]:80") = some (lit "::1", lit "80") := by decide +kernel
example : splitHostPort (lit "::1") = none := by decide +kernel

/-- `net.IPNet`. -/
structure IPNet where
  ip : IP
  mask : List UInt8
  deriving DecidableEq, Repr

/-- `net.CIDRMask` of `ones` bits over `bytes` bytes. -/
def cidrMask : Nat → Nat → List UInt8
  | _, 0 => []
  | ones, bytes + 1 =>
    if 8 ≤ ones then 0xFF :: cidrMask (ones - 8) bytes
    else (0x100 - 2 ^ (8 - ones)).toUInt8 :: cidrMask 0 bytes

/-- `net.ParseCIDR`. -/
def parseCIDR (s : Bytes) : Option (IP × IPNet) :=
  match s.findIdx? (· = 0x2F) with
  | none => none
  | some i =>
    let mask := s.drop (i + 1)
    match parseAddr (s.take i) with
    | none => none
    | some addr =>
      let ones := mask.foldl (fun n b => n * 10 + (b.toNat - 0x30)) 0
      if mask = [] ∨ mask.any (fun b => !within 0x30 0x39 b) ∨ addr.length * 8 < ones then none
      else
        let m := cidrMask ones addr.length
        some (as16 addr, ⟨addr.zipWith (· &&& ·) m, m⟩)

/-- The ones of a mask (`net.IPMask.Size`). -/
def maskOnes (mask : List UInt8) : Nat :=
  (mask.map (fun b => 8 - Nat.log2 (0x100 - b.toNat))).sum

/-- `net.IPNet.Contains`. -/
def IPNet.contains (n : IPNet) (ip : IP) : Bool :=
  let nn := n.ip.to4.getD n.ip
  let m := if n.mask.length = 16 ∧ nn.length = 4 then n.mask.drop 12 else n.mask
  let x := ip.to4.getD ip
  (m.length = nn.length && x.length = nn.length) &&
    (nn.zipWith (· &&& ·) m == x.zipWith (· &&& ·) m)

example : (parseCIDR (lit "10.1.2.3/12")).map (fun p => (maskOnes p.2.mask,
    (parseIP (lit "10.15.0.1")).any p.2.contains, (parseIP (lit "10.16.0.1")).any p.2.contains)) =
    some (12, true, false) := by decide +kernel

end GoNet
