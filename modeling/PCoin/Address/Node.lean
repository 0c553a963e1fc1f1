import PCoin.Address.Parse

open codec swift
open pcoin.store pcoin.block

namespace pcoin.address.node

/-- The text as the node's `std::string`. -/
def utf8 (s : List Char) : Bytes := s.flatMap String.utf8EncodeChar

structure CChainParams where
  pubkeyAddress : UInt8
  scriptAddress : UInt8
  bech32Hrp : Bytes

def CChainParams.main : CChainParams where
  pubkeyAddress := 55
  scriptAddress := 56
  bech32Hrp := utf8 "pc".toList

def CChainParams.regTest : CChainParams where
  pubkeyAddress := 117
  scriptAddress := 118
  bech32Hrp := utf8 "pcrt".toList

inductive CTxDestination where
  | noDestination
  | pkHash (hash : Bytes)
  | scriptHash (hash : Bytes)
  | witnessV0KeyHash (id : Bytes)
  | witnessV0ScriptHash (id : Bytes)
  | witnessV1Taproot (tap : Bytes)
  | payToAnchor
  | witnessUnknown (version : Nat) (program : Bytes)
  deriving DecidableEq

/-- `CScript::operator<<` of fewer than 76 bytes. -/
def push (b : Bytes) : Bytes := UInt8.ofNat b.length :: b

def encodeOP_N (n : Nat) : UInt8 := if n = 0 then 0x00 else 0x51 + UInt8.ofNat n - 1

def getScriptForDestination : CTxDestination → Bytes
  | .noDestination => []
  | .pkHash hash => [0x76, 0xa9] ++ push hash ++ [0x88, 0xac]
  | .scriptHash hash => [0xa9] ++ push hash ++ [0x87]
  | .witnessV0KeyHash id => 0x00 :: push id
  | .witnessV0ScriptHash id => 0x00 :: push id
  | .witnessV1Taproot tap => 0x51 :: push tap
  | .payToAnchor => encodeOP_N 1 :: push [0x4e, 0x73]
  | .witnessUnknown version program => encodeOP_N version :: push program

def isSpace (c : UInt8) : Bool := c = 32 || c = 12 || c = 10 || c = 13 || c = 9 || c = 11

/-- The codes below 128 of `mapBase58`; every other code has -1. -/
def mapBase58 : List Int :=
  [-1,-1,-1,-1,-1,-1,-1,-1, -1,-1,-1,-1,-1,-1,-1,-1,
   -1,-1,-1,-1,-1,-1,-1,-1, -1,-1,-1,-1,-1,-1,-1,-1,
   -1,-1,-1,-1,-1,-1,-1,-1, -1,-1,-1,-1,-1,-1,-1,-1,
   -1, 0, 1, 2, 3, 4, 5, 6,  7, 8,-1,-1,-1,-1,-1,-1,
   -1, 9,10,11,12,13,14,15, 16,-1,17,18,19,20,21,-1,
   22,23,24,25,26,27,28,29, 30,31,32,-1,-1,-1,-1,-1,
   -1,33,34,35,36,37,38,39, 40,41,42,43,-1,44,45,46,
   47,48,49,50,51,52,53,54, 55,56,57,-1,-1,-1,-1,-1]

/-- The characters of a base58 text up to a space; `b256` holds its significant bytes, the low one
    first. -/
def decodeBase58Loop (maxRetLen zeroes : Nat) : Bytes → List Nat → Option (List Nat × Bytes)
  | [], b256 => some (b256, [])
  | c :: psz, b256 =>
    if isSpace c then some (b256, c :: psz)
    else
      let carry := mapBase58.getD c.toNat (-1)
      if carry = -1 then none
      else
        let b256 := mulAdd 256 58 b256 carry.toNat
        if b256.length + zeroes > maxRetLen then none else decodeBase58Loop maxRetLen zeroes psz b256

def decodeBase58 (str : Bytes) (maxRetLen : Nat) : Option Bytes :=
  if 0 ∈ str then none
  else
    let psz := str.dropWhile isSpace
    let zeroes := (psz.takeWhile (· = 49)).length
    if zeroes > maxRetLen then none
    else
      match decodeBase58Loop maxRetLen zeroes (psz.dropWhile (· = 49)) [] with
      | none => none
      | some (b256, psz) =>
        if psz.dropWhile isSpace ≠ [] then none
        else some (List.replicate zeroes 0 ++ bytes b256.reverse)

def decodeBase58Check (hash : Bytes → Hash) (str : Bytes) (maxRetLen : Nat) : Option Bytes :=
  match decodeBase58 str (maxRetLen + 4) with
  | none => none
  | some vchRet =>
    if vchRet.length < 4 then none
    else
      let data := vchRet.take (vchRet.length - 4)
      if (hash data).val.take 4 ≠ vchRet.drop (vchRet.length - 4) then none else some data

/-- The codes of `CHARSET_REV`. -/
def charsetRev : List Int :=
  [-1, -1, -1, -1, -1, -1, -1, -1, -1, -1, -1, -1, -1, -1, -1, -1,
   -1, -1, -1, -1, -1, -1, -1, -1, -1, -1, -1, -1, -1, -1, -1, -1,
   -1, -1, -1, -1, -1, -1, -1, -1, -1, -1, -1, -1, -1, -1, -1, -1,
   15, -1, 10, 17, 21, 20, 26, 30,  7,  5, -1, -1, -1, -1, -1, -1,
   -1, 29, -1, 24, 13, 25,  9,  8, 23, -1, 18, 22, 31, 27, 19, -1,
    1,  0,  3, 16, 11, 28, 12, 14,  6,  4,  2, -1, -1, -1, -1, -1,
   -1, 29, -1, 24, 13, 25,  9,  8, 23, -1, 18, 22, 31, 27, 19, -1,
    1,  0,  3, 16, 11, 28, 12, 14,  6,  4,  2, -1, -1, -1, -1, -1]

def isLower (c : UInt8) : Bool := 97 ≤ c && c ≤ 122

def isUpper (c : UInt8) : Bool := 65 ≤ c && c ≤ 90

def lowerCase (c : UInt8) : UInt8 := if isUpper c then c - 65 + 97 else c

/-- Whether `CheckCharacters` finds no error; one error is enough. -/
def checkCharacters : Bool → Bool → Bytes → Bool
  | _, _, [] => true
  | lower, upper, c :: str =>
    if isLower c then !upper && checkCharacters true upper str
    else if isUpper c then !lower && checkCharacters lower true str
    else if c < 33 || 126 < c then false
    else checkCharacters lower upper str

def polyMod (v : List Nat) : Nat := Bech32.code.run 1 v

def preparePolynomialCoefficients (hrp : Bytes) (values : List Nat) : List Nat :=
  hrp.map (fun c => c.toNat >>> 5) ++ [0] ++ hrp.map (fun c => c.toNat &&& 0x1f) ++ values

inductive Encoding where
  | invalid
  | bech32
  | bech32m
  deriving DecidableEq

def verifyChecksum (hrp : Bytes) (values : List Nat) : Encoding :=
  let check := polyMod (preparePolynomialCoefficients hrp values)
  if check = 1 then .bech32 else if check = 0x2bc830a3 then .bech32m else .invalid

def revs : Bytes → Option (List Nat)
  | [] => some []
  | c :: s =>
    let rev := charsetRev.getD c.toNat (-1)
    if rev = -1 then none else (revs s).map (rev.toNat :: ·)

structure DecodeResult where
  encoding : Encoding
  hrp : Bytes
  data : List Nat

/-- `bech32::Decode`. -/
def decode (str : Bytes) : DecodeResult :=
  let failed := { encoding := .invalid, hrp := [], data := [] }
  if !checkCharacters false false str then failed
  else if str.length > 90 then failed
  else
    match splitLast 49 str with
    | none => failed
    | some (before, after) =>
      if before.length = 0 ∨ before.length + 6 ≥ str.length then failed
      else
        match revs after with
        | none => failed
        | some values =>
          let hrp := before.map lowerCase
          let result := verifyChecksum hrp values
          if result = .invalid then failed
          else { encoding := result, hrp, data := values.take (values.length - 6) }

/-- `ConvertBits<5, 8, false>`. -/
def convertBits (data : List Nat) : Option Bytes :=
  ((regroup 12 5 8 data).finish 5 8 false).map bytes

/-- What a bech32 text decodes to. -/
def decodeSegwit (params : CChainParams) (str : Bytes) : CTxDestination :=
  let dec := decode str
  if dec.encoding = .invalid then .noDestination
  else
    match dec.data with
    | [] => .noDestination
    | version :: rest =>
      if dec.hrp ≠ params.bech32Hrp then .noDestination
      else if version = 0 ∧ dec.encoding ≠ .bech32 then .noDestination
      else if version ≠ 0 ∧ dec.encoding ≠ .bech32m then .noDestination
      else
        match convertBits rest with
        | none => .noDestination
        | some data =>
          if version = 0 then
            if data.length = 20 then .witnessV0KeyHash data
            else if data.length = 32 then .witnessV0ScriptHash data
            else .noDestination
          else if version = 1 ∧ data.length = 32 then .witnessV1Taproot data
          else if version = 1 ∧ data = [0x4e, 0x73] then .payToAnchor
          else if version > 16 then .noDestination
          else if data.length < 2 ∨ data.length > 40 then .noDestination
          else .witnessUnknown version data

def decodeDestination (hash : Bytes → Hash) (params : CChainParams) (str : Bytes) : CTxDestination :=
  let is_bech32 := (str.take params.bech32Hrp.length).map lowerCase = params.bech32Hrp
  if is_bech32 then decodeSegwit params str
  else
    match decodeBase58Check hash str 21 with
    | none => .noDestination
    | some data =>
      match data with
      | [] => .noDestination
      | version :: rest =>
        if data.length = 21 ∧ version = params.pubkeyAddress then .pkHash rest
        else if data.length = 21 ∧ version = params.scriptAddress then .scriptHash rest
        else .noDestination

/-- The script that a text pays to, nothing when the node takes it for no address. -/
def scriptFor (hash : Bytes → Hash) (params : CChainParams) (str : Bytes) : Bytes :=
  getScriptForDestination (decodeDestination hash params str)

end pcoin.address.node
