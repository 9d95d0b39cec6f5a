import PeerChat.Text.Decimal

/-!
# Network addresses

Addresses of both families, in their written forms. An address of the newer family is written with
its longest run of at least two zero groups left out, the first of equal runs, and the form of the
older family is kept for addresses mapped into the newer one.
-/

namespace PeerChat

inductive IpAddress where
  | v4 (a b c d : UInt8)
  | v6 (groups : Vector UInt16 8)
  deriving DecidableEq, Repr

namespace IpAddress

/-- The texts between separators; there is one more of them than there are separators. -/
def fields (separator : Char) : List Char → List (List Char)
  | [] => [[]]
  | c :: rest =>
    if c = separator then [] :: fields separator rest
    else match fields separator rest with
      | [] => [[c]]
      | field :: later => (c :: field) :: later

/-! ## Reading -/

/-- One to three digits, with a leading zero only for zero itself. -/
def readOctet? (cs : List Char) : Option UInt8 :=
  if 3 < cs.length || (1 < cs.length && cs.head? == some '0') then none
  else (Decimal.readDigits? 256 cs).map UInt8.ofNat

def readV4? (cs : List Char) : Option (UInt8 × UInt8 × UInt8 × UInt8) :=
  match fields '.' cs with
  | [a, b, c, d] => do
    return (← readOctet? a, ← readOctet? b, ← readOctet? c, ← readOctet? d)
  | _ => none

def hexValue? (c : Char) : Option Nat :=
  if '0' ≤ c ∧ c ≤ '9' then some (c.toNat - '0'.toNat)
  else if 'a' ≤ c ∧ c ≤ 'f' then some (c.toNat - 'a'.toNat + 10)
  else if 'A' ≤ c ∧ c ≤ 'F' then some (c.toNat - 'A'.toNat + 10)
  else none

/-- One to four hexadecimal digits. -/
def readGroup? (cs : List Char) : Option UInt16 :=
  if cs.isEmpty || 4 < cs.length then none
  else (cs.foldlM (fun value c => (hexValue? c).map (16 * value + ·)) 0).map UInt16.ofNat

def word (high low : UInt8) : UInt16 := UInt16.ofNat (256 * high.toNat + low.toNat)

/-- Groups, of which the last two may be written as four octets. -/
def readGroups? : List (List Char) → Option (List UInt16)
  | [] => some []
  | [last] =>
    match readV4? last with
    | some (a, b, c, d) => some [word a b, word c d]
    | none => (readGroup? last).map ([·])
  | field :: later => do
    return (← readGroup? field) :: (← readGroups? later)

/-- The texts before and after the first double colon. -/
def cutGap? : List Char → Option (List Char × List Char)
  | ':' :: ':' :: rest => some ([], rest)
  | c :: rest => (cutGap? rest).map fun (before, after) => (c :: before, after)
  | [] => none

/-- The fields of a part that may be empty. -/
def partFields (cs : List Char) : List (List Char) := if cs.isEmpty then [] else fields ':' cs

def ofGroups? (groups : List UInt16) : Option IpAddress :=
  if h : groups.length = 8 then some (.v6 ⟨groups.toArray, by simpa using h⟩) else none

def readV6? (cs : List Char) : Option IpAddress :=
  match cutGap? cs with
  | none => readGroups? (fields ':' cs) >>= ofGroups?
  | some (before, after) => do
    let head ← (partFields before).mapM readGroup?
    let tail ← readGroups? (partFields after)
    if head.length + tail.length ≤ 7 then
      ofGroups? (head ++ List.replicate (8 - (head.length + tail.length)) 0 ++ tail)
    else none

def read? (s : String) : Option IpAddress :=
  match readV4? s.toList with
  | some (a, b, c, d) => some (.v4 a b c d)
  | none => readV6? s.toList

/-! ## Writing -/

def octetsText (a b c d : UInt8) : List Char :=
  Nat.toDigits 10 a.toNat ++ '.' :: Nat.toDigits 10 b.toNat ++ '.' :: Nat.toDigits 10 c.toNat ++
    '.' :: Nat.toDigits 10 d.toNat

def groupText (g : UInt16) : List Char := Nat.toDigits 16 g.toNat

def groupsText : List UInt16 → List Char
  | [] => []
  | [g] => groupText g
  | g :: later => groupText g ++ ':' :: groupsText later

/-- The length of the run of zeros at the front. -/
def zeroRun : List UInt16 → Nat
  | [] => 0
  | g :: later => if g = 0 then zeroRun later + 1 else 0

/-- Start and length of the longest run of zeros, the first of equal ones. -/
def longestRun : List UInt16 → Nat × Nat
  | [] => (0, 0)
  | g :: later =>
    let (start, len) := longestRun later
    let here := zeroRun (g :: later)
    if len ≤ here then (0, here) else (start + 1, len)

def v6Text (groups : List UInt16) : List Char :=
  match groups with
  | [0, 0, 0, 0, 0, 0xffff, high, low] =>
    "::ffff:".toList ++ octetsText (UInt8.ofNat (high.toNat / 256)) (UInt8.ofNat high.toNat)
      (UInt8.ofNat (low.toNat / 256)) (UInt8.ofNat low.toNat)
  | _ =>
    let (start, len) := longestRun groups
    if 2 ≤ len then
      groupsText (groups.take start) ++ ':' :: ':' :: groupsText (groups.drop (start + len))
    else groupsText groups

def text : IpAddress → String
  | v4 a b c d => String.ofList (octetsText a b c d)
  | v6 groups => String.ofList (v6Text groups.toList)

def loopback : IpAddress := .v4 127 0 0 1

end IpAddress

/-- An address and the port behind it. -/
structure Endpoint where
  address : IpAddress
  port : UInt16
  deriving DecidableEq, Repr

def Endpoint.text (e : Endpoint) : String :=
  match e.address with
  | .v4 .. => e.address.text ++ ":" ++ toString e.port.toNat
  | .v6 .. => "[" ++ e.address.text ++ "]:" ++ toString e.port.toNat

end PeerChat
