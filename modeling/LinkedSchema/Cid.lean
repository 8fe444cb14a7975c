import LinkedSchema.Encoding.Multibase
import LinkedSchema.Encoding.Varint

namespace LinkedSchema

/-- A content identifier. Version 0 always has a SHA-256 digest; version 1 names the codec of the
block and the digest function by numbers. -/
inductive Cid where
  | v0 (digest : List UInt8) (length_eq : digest.length = 32)
  | v1 (codec code : UInt64) (digest : List UInt8) (length_le : digest.length ≤ 64)
  deriving DecidableEq

/-- Why a text is no content identifier. -/
inductive CidError where
  | tooShort
  | notParsed
  | malformedNumber
  | endOfInput
  | shortDigest
  | nestedVersionZero
  | unknownVersion
  deriving DecidableEq

def CidError.message : CidError → String
  | tooShort => "Input too short"
  | notParsed => "Failed to parse multihash"
  | malformedNumber => "Failed to decode unsigned varint format"
  | endOfInput => "unexpected end of file"
  | shortDigest => "failed to fill whole buffer"
  | nestedVersionZero => "CIDv0 cannot be specified in CIDv1 format"
  | unknownVersion => "Unrecognized CID version"

namespace Cid

open Encoding

/-- The number of the SHA-256 function. -/
def sha256 : UInt8 := 0x12

def bytes : Cid → List UInt8
  | v0 digest _ => sha256 :: 32 :: digest
  | v1 codec code digest _ =>
    writeVarint 1 ++ writeVarint codec ++ writeVarint code ++
      writeVarint (UInt64.ofNat digest.length) ++ digest

/-- Version 0 in base 58, version 1 in lower-case base 32 with its code in front. -/
def text (cid : Cid) : String :=
  match cid with
  | v0 .. => String.ofList (writeRadix base58Alphabet cid.bytes)
  | v1 .. => String.ofList ('b' :: writeGroups 5 base32Alphabet cid.bytes)

def readNumber (bytes : List UInt8) : Except CidError (UInt64 × List UInt8) :=
  (readVarint bytes).mapError fun
    | .endOfInput => .endOfInput
    | .malformed => .malformedNumber

/-- The digest function, the length of the digest and the digest; nothing may be wrong with them. -/
def readMultihash (codec : UInt64) (bytes : List UInt8) : Except CidError Cid :=
  match readVarint bytes with
  | .error _ => throw .notParsed
  | .ok (code, bytes) =>
    match readVarint bytes with
    | .error _ => throw .notParsed
    | .ok (length, bytes) =>
      if h : length.toNat ≤ 64 ∧ length.toNat ≤ bytes.length then
        return v1 codec code (bytes.take length.toNat) (by
          rw [List.length_take]
          omega)
      else throw .notParsed

/-- Reads an identifier; bytes after its digest are ignored. Version 0 shows itself by the number of
the digest function and the length of the digest in the places of version and codec. -/
def ofBytes (bytes : List UInt8) : Except CidError Cid := do
  let (version, bytes) ← readNumber bytes
  let (codec, bytes) ← readNumber bytes
  if version = sha256.toUInt64 ∧ codec = 32 then
    if h : 32 ≤ bytes.length then
      return v0 (bytes.take 32) (by
        rw [List.length_take]
        omega)
    else throw .shortDigest
  else if version = 0 then throw .nestedVersionZero
  else if version = 1 then readMultihash codec bytes
  else throw .unknownVersion

/-- What follows the first occurrence of a pattern. -/
def afterFirst? (pattern : List Char) : List Char → Option (List Char)
  | [] => if pattern = [] then some [] else none
  | c :: rest =>
    if pattern.isPrefixOf (c :: rest) then some ((c :: rest).drop pattern.length)
    else afterFirst? pattern rest

/-- Reads the text of an identifier, of which only what follows a path marker counts. -/
def ofText (text : String) : Except CidError Cid := do
  let symbols := (afterFirst? "/ipfs/".toList text.toList).getD text.toList
  let length := (String.ofList symbols).utf8ByteSize
  if length < 2 then throw .tooShort
  let bytes :=
    if length = 46 && ['Q', 'm'].isPrefixOf symbols then readRadix? base58Alphabet symbols
    else readMultibase? symbols
  match bytes with
  | some bytes => ofBytes bytes
  | none => throw .notParsed

end Cid

end LinkedSchema
