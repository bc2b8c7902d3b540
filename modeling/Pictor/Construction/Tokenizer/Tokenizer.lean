import Pictor.Construction.Tokenizer.Bpe

namespace Pictor

structure TokenizerConfig where
  addBos : Bool
  addEos : Bool
  bosTokenId : UInt32
  eosTokenId : UInt32
  unkTokenId : UInt32
  padTokenId : UInt32
  maxLength : Option Nat
  byteLevelDecode : Bool
  deriving DecidableEq

namespace TokenizerConfig

def default : TokenizerConfig :=
  { addBos := false, addEos := false, bosTokenId := 1, eosTokenId := 2, unkTokenId := 0, padTokenId := 3
    maxLength := none, byteLevelDecode := false }

end TokenizerConfig

/-- The message of a failed decoding is the one of the conversion of the bytes. -/
inductive TokenizerError where
  | decodeFailed (bytes : List UInt8)
  | incompleteUtf8
  deriving DecidableEq

def buildSpecialIds (config : TokenizerConfig) : List UInt32 :=
  [config.bosTokenId, config.eosTokenId, config.unkTokenId, config.padTokenId]

/-- The unigram and the WordPiece vocabulary are the functions that encode with them. -/
structure PictorTokenizer where
  vocab : Vocabulary
  merges : BpeMerges
  config : TokenizerConfig
  specialIds : List UInt32
  unigram : Option (List Char → List UInt32)
  wordpiece : Option (List Char → List UInt32)

/-- A token of the form `<0xHH>` is a byte. -/
def parseByteFallback (token : List Char) : Option UInt8 :=
  if ['<', '0', 'x'] <+: token ∧ ['>'] <:+ token.drop 3 then
    let inner := (token.drop 3).dropLast
    if (Utf8.encode inner).length ≠ 2 then none else parseHexByte inner
  else none

namespace PictorTokenizer

def new (vocab : Vocabulary) (merges : BpeMerges) (config : TokenizerConfig) : PictorTokenizer :=
  { vocab, merges, config, specialIds := buildSpecialIds config, unigram := none, wordpiece := none }

/-- The tokens of a word on the paths other than WordPiece. -/
def encodeWord (tokenizer : PictorTokenizer) (word : List Char) : List UInt32 :=
  match tokenizer.unigram with
  | some unigram => unigram word
  | none =>
      let wordIds := Bpe.bpeEncode word tokenizer.vocab tokenizer.merges
      if wordIds = [] then
        (Utf8.encode word).map fun byte =>
          (tokenizer.vocab.getId (Bpe.byteFallbackId byte)).getD tokenizer.config.unkTokenId
      else wordIds

def encode (tokenizer : PictorTokenizer) (text : List Char) : Except TokenizerError (List UInt32) :=
  let bos := if tokenizer.config.addBos then [tokenizer.config.bosTokenId] else []
  let ids := match tokenizer.wordpiece with
    | some wordpiece => wordpiece text
    | none => (Bpe.pretokenize text).flatMap tokenizer.encodeWord
  let eos := if tokenizer.config.addEos then [tokenizer.config.eosTokenId] else []
  let ids := bos ++ ids ++ eos
  .ok (match tokenizer.config.maxLength with
    | some max => ids.take max
    | none => ids)

/-- The bytes of a token on the path of the byte-level map. -/
def byteLevelBytes (token : List Char) : List UInt8 :=
  token.flatMap fun ch =>
    match ByteLevel.unicodeToByte ch with
    | some byte => [byte]
    | none => String.utf8EncodeChar ch

/-- The bytes after a token. The earlier path turns a leading prefix into a space unless it is first. -/
def decodeIdInto (tokenizer : PictorTokenizer) (id : UInt32) (bytes : List UInt8) : List UInt8 :=
  if id ∈ tokenizer.specialIds then bytes
  else
    match tokenizer.vocab.getToken id with
    | none => bytes ++ String.utf8EncodeChar (Char.ofNat 0xfffd)
    | some token =>
        match parseByteFallback token with
        | some byte => bytes ++ [byte]
        | none =>
            if tokenizer.config.byteLevelDecode then bytes ++ byteLevelBytes token
            else
              let stripped := token.dropWhile fun ch => ch = Bpe.spacePrefix
              let bytes := if token.head? = some Bpe.spacePrefix ∧ bytes ≠ [] then bytes ++ [0x20] else bytes
              bytes ++ Utf8.encode stripped

def decodeToBytes (tokenizer : PictorTokenizer) (ids : List UInt32) : List UInt8 :=
  ids.foldl (fun bytes id => tokenizer.decodeIdInto id bytes) []

def decode (tokenizer : PictorTokenizer) (ids : List UInt32) : Except TokenizerError (List Char) :=
  match Utf8.decode (tokenizer.decodeToBytes ids) with
  | some text => .ok text
  | none => .error (.decodeFailed (tokenizer.decodeToBytes ids))

end PictorTokenizer

end Pictor

namespace Pictor

structure StreamingDecoder where
  tokenizer : PictorTokenizer
  pending : List UInt8
  totalBytes : Nat
  totalTokens : Nat

namespace StreamingDecoder

def new (tokenizer : PictorTokenizer) : StreamingDecoder := ⟨tokenizer, [], 0, 0⟩

/-- The complete characters of the pending bytes. -/
def flushComplete (decoder : StreamingDecoder) : Option (List Char) × StreamingDecoder :=
  if decoder.pending = [] then (none, decoder)
  else
    match Utf8.decode decoder.pending with
    | some owned => (if owned = [] then none else some owned, { decoder with pending := [] })
    | none =>
        let validUpTo := (Utf8.encode (Utf8.validPrefix decoder.pending).1).length
        if validUpTo = 0 then (none, decoder)
        else
          let prefixBytes := decoder.pending.take validUpTo
          let drained := { decoder with pending := decoder.pending.drop validUpTo }
          match Utf8.decode prefixBytes with
          | some owned => (if owned = [] then none else some owned, drained)
          | none => (none, drained)

def pushToken (decoder : StreamingDecoder) (id : UInt32) : Option (List Char) × StreamingDecoder :=
  let decoder := { decoder with totalTokens := decoder.totalTokens + 1 }
  let scratch := decoder.tokenizer.decodeIdInto id []
  if scratch = [] then (none, decoder)
  else { decoder with
    totalBytes := decoder.totalBytes + scratch.length
    pending := decoder.pending ++ scratch }.flushComplete

def finish (decoder : StreamingDecoder) : Except TokenizerError (List Char) :=
  if decoder.pending = [] then .ok []
  else
    match Utf8.decode decoder.pending with
    | some text => .ok text
    | none => .error .incompleteUtf8

/-- The strings of a list of calls, joined, and the decoder after them. -/
def pushAll (decoder : StreamingDecoder) : List UInt32 → List Char × StreamingDecoder
  | [] => ([], decoder)
  | id :: ids =>
      let pushed := decoder.pushToken id
      let rest := pushed.2.pushAll ids
      (pushed.1.getD [] ++ rest.1, rest.2)

end StreamingDecoder

end Pictor
