import DeepSeekWebToApi.Lib.Json
import DeepSeekWebToApi.Lib.UpperCase

/- Go's `http.Header`: the values of each name in the order they came, under canonical
   names. -/
namespace GoHttp
open GoStrings

abbrev Header := KeyMap (List Bytes)

def validHeaderFieldByte (b : UInt8) : Bool :=
  GoJson.isDigit b || within 0x61 0x7A (lowerAscii b) || (lit "!#$%&'*+-.^_`|~").contains b

/-- `textproto.CanonicalMIMEHeaderKey`: capitals at the front and behind a hyphen. A text that
    is no header name stays as it is. -/
def canonicalHeaderKey (name : Bytes) : Bytes :=
  if name.all validHeaderFieldByte then
    (name.foldl (fun (acc : Bytes × Bool) b =>
      (acc.1 ++ [if acc.2 then upperAscii b else lowerAscii b], b == 0x2D)) ([], true)).1
  else name

/-- `h.Values(name)`. -/
def Header.values (h : Header) (name : Bytes) : List Bytes :=
  ((h.find? (fun kv => kv.1 == canonicalHeaderKey name)).map Prod.snd).getD []

/-- `h.Get(name)`. -/
def Header.get (h : Header) (name : Bytes) : Bytes := (h.values name).head?.getD []

/-- `h.Add(name, value)`. -/
def Header.add (h : Header) (name value : Bytes) : Header :=
  KeyMap.insert (canonicalHeaderKey name) (h.values name ++ [value]) h

end GoHttp
