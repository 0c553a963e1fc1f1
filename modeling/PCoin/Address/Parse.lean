import PCoin.Address.Bech32
import PCoin.Wallet.Amounts

open codec swift decimal
open pcoin.store pcoin.block

namespace pcoin.address

structure Network where
  bech32Hrp : List Char
  pubkeyAddressPrefix : UInt8
  scriptAddressPrefix : UInt8
  deriving DecidableEq

def Network.mainnet : Network where
  bech32Hrp := Bech32.hrpMainnet
  pubkeyAddressPrefix := 55
  scriptAddressPrefix := 56

def Network.regtest : Network where
  bech32Hrp := Bech32.hrpRegtest
  pubkeyAddressPrefix := 111
  scriptAddressPrefix := 196

inductive Kind where
  | p2wpkh (hash160 : Bytes)
  | p2wsh (hash256 : Bytes)
  | p2tr (x : Bytes)
  | witnessUnknown (version : UInt8) (program : Bytes)
  | p2pkh (hash160 : Bytes)
  | p2sh (hash160 : Bytes)
  deriving DecidableEq

inductive Failure where
  | notAnAddress
  | wrongNetwork (detail : List Char)
  | badChecksum
  | malformedProgram
  deriving DecidableEq

structure Address where
  text : List Char
  kind : Kind
  network : Network
  deriving DecidableEq

namespace Address

def scriptPubKey (a : Address) : Bytes :=
  match a.kind with
  | .p2wpkh h => [0x00, 0x14] ++ h
  | .p2wsh h => [0x00, 0x20] ++ h
  | .p2tr x => [0x51, 0x20] ++ x
  | .witnessUnknown v p => [0x50 + v, UInt8.ofNat p.length] ++ p
  | .p2pkh h => [0x76, 0xa9, 0x14] ++ h ++ [0x88, 0xac]
  | .p2sh h => [0xa9, 0x14] ++ h ++ [0x87]

/-- The kind of a segwit address. -/
def segwitKind (version : UInt8) (program : Bytes) : Kind :=
  match version.toNat, program.length with
  | 0, 20 => .p2wpkh program
  | 0, 32 => .p2wsh program
  | 1, 32 => .p2tr program
  | _, _ => .witnessUnknown version program

/-- What becomes of a text that does not look like a segwit address. -/
def parseBase58 (U : Unicode) (doubleSha256 : Bytes → Hash) (network : Network)
    (trimmed : List Char) : Except Failure Address :=
  match Base58.decodeCheck U doubleSha256 trimmed with
  | none => .error .notAnAddress
  | some payload =>
    match payload with
    | [] => .error .malformedProgram
    | version :: hash =>
      if payload.length ≠ 21 then .error .malformedProgram
      else if version = network.pubkeyAddressPrefix then
        .ok { text := trimmed, kind := .p2pkh hash, network }
      else if version = network.scriptAddressPrefix then
        .ok { text := trimmed, kind := .p2sh hash, network }
      else .error (.wrongNetwork ("version byte ".toList ++ (toString version.toNat).toList))

def parse (U : Unicode) (doubleSha256 : Bytes → Hash) (network : Network) (raw : List Char) :
    Except Failure Address :=
  let trimmed := strip wallet.ios.isWhitespaceOrNewline raw
  if trimmed.isEmpty then .error .notAnAddress
  else
    match splitLast ['1'] (U.characters trimmed) with
    | none => parseBase58 U doubleSha256 network trimmed
    | some (before, _) =>
      let hrp := U.lowercased before.flatten
      if hrp ≠ [] ∧ (U.characters hrp).all U.isLetter then
        match Bech32.decode U trimmed with
        | some d =>
          if d.hrp ≠ network.bech32Hrp then .error (.wrongNetwork d.hrp)
          else
            .ok { text := U.lowercased trimmed, kind := segwitKind d.witnessVersion d.program, network }
        | none =>
          if hrp = network.bech32Hrp ∨ hrp = "bc".toList ∨ hrp = "tb".toList ∨ hrp = "bcrt".toList ∨
              hrp = Network.regtest.bech32Hrp then
            if hrp ≠ network.bech32Hrp then .error (.wrongNetwork hrp) else .error .badChecksum
          else parseBase58 U doubleSha256 network trimmed
      else parseBase58 U doubleSha256 network trimmed

end Address

end pcoin.address
