import Gufo.Chat.Template
import Gufo.Lib.Marked

/-!
# Tokens of a rendered prompt

`QwenTokenizer::Encode` and `QwenChatTemplate::EncodeRendered`. A text is cut into chunks,
special spellings and what stands between them; the merging of ordinary text into tokens
is a parameter.
-/

namespace Gufo.Chat
open Gufo.Text Gufo.ToolCall

abbrev TokenId := UInt32

/-- A registered special token. The scan for an empty spelling would never end. -/
structure SpecialToken where
  text : Bytes
  id : TokenId
  nonempty : text ≠ []

structure QwenTokenizer where
  specialTokens : List SpecialToken
  /-- `BpeEncodeText` -/
  bpeEncodeText : Bytes → List TokenId
  bosTokenId : Option TokenId := none
  eosTokenId : Option TokenId := none

structure TokenizerOptions where
  addBos : Bool := false
  addEos : Bool := false
  parseSpecialTokens : Bool := true

/-- A part of the encoded text: ordinary text, a special spelling, or a token of no bytes. -/
inductive Chunk where
  | text (source : Bytes)
  | special (token : SpecialToken)
  | boundary (id : TokenId)

namespace Chunk

def tokens (tokenizer : QwenTokenizer) : Chunk → List TokenId
  | text source => tokenizer.bpeEncodeText source
  | special token => [token.id]
  | boundary id => [id]

/-- For each byte that the chunk stands for, whether a special token spans it. -/
def control : Chunk → List Bool
  | text source => List.replicate source.length false
  | special token => List.replicate token.text.length true
  | boundary _ => []

end Chunk

namespace QwenTokenizer
variable (tokenizer : QwenTokenizer)

/-- The better of a place found so far and the first place of one more spelling. -/
def takeEarlier (text : Bytes) (best : Option (Nat × SpecialToken)) (token : SpecialToken) :
    Option (Nat × SpecialToken) :=
  match find token.text text, best with
  | none, best => best
  | some found, none => some (found, token)
  | some found, some (next, matched) =>
    if found < next ∨ found = next ∧ matched.text.length < token.text.length then
      some (found, token)
    else some (next, matched)

/-- The earliest special spelling, the longest where two start together. -/
def nextSpecial (text : Bytes) : Option (Nat × SpecialToken) :=
  tokenizer.specialTokens.foldl (takeEarlier text) none

def textChunk (text : Bytes) : List Chunk := if text = [] then [] else [.text text]

/-- The scan for special spellings. A spelling has a byte at least, so a fuel of the text's length
never runs out. -/
def scanSpecials : Nat → Bytes → List Chunk
  | 0, text => textChunk text
  | fuel + 1, text =>
    match tokenizer.nextSpecial text with
    | none => textChunk text
    | some (next, token) =>
      textChunk (text.take next) ++ .special token ::
        scanSpecials fuel (text.drop (next + token.text.length))

/-- `Encode`, as chunks. -/
def encode (text : Bytes) (options : TokenizerOptions) : List Chunk :=
  (if options.addBos then tokenizer.bosTokenId.toList.map .boundary else []) ++
    (if options.parseSpecialTokens ∧ tokenizer.specialTokens ≠ [] then
      tokenizer.scanSpecials text.length text
    else textChunk text) ++
    (if options.addEos then tokenizer.eosTokenId.toList.map .boundary else [])

/-- Whether a text holds a special spelling. -/
def spellsSpecial (text : Bytes) : Bool :=
  tokenizer.specialTokens.any fun token => (find token.text text).isSome

end QwenTokenizer

/-- One content span: where it spells a special token, the framing before it and the span itself are
encoded, and the cursor moves behind it. -/
def encodeSpan (tokenizer : QwenTokenizer) (rendered : Bytes) (start stop : Nat)
    (options : TokenizerOptions) (s : List Chunk × Nat) (span : Nat × Nat) : List Chunk × Nat :=
  let spanEnd := span.1 + span.2
  if spanEnd ≤ start ∨ stop ≤ span.1 then s
  else
    let first := max span.1 start
    let last := min spanEnd stop
    let content := slice rendered first last
    if tokenizer.spellsSpecial content then
      let framed :=
        if s.2 < first then
          tokenizer.encode (slice rendered s.2 first) { options with parseSpecialTokens := true }
        else []
      (s.1 ++ framed ++ tokenizer.encode content { options with parseSpecialTokens := false }, last)
    else s

/-- `EncodeRendered`, as chunks. -/
def encodeRendered (tokenizer : QwenTokenizer) (rendered : Bytes) (start stop : Nat)
    (contentSpans : List (Nat × Nat)) (options : TokenizerOptions) : List Chunk :=
  let (chunks, cursor) :=
    contentSpans.foldl (encodeSpan tokenizer rendered start stop options) ([], start)
  if cursor = start then tokenizer.encode (slice rendered start stop) options
  else if cursor < stop then
    chunks ++
      tokenizer.encode (slice rendered cursor stop) { options with parseSpecialTokens := true }
  else chunks

def tokensOf (tokenizer : QwenTokenizer) (chunks : List Chunk) : List TokenId :=
  chunks.flatMap (Chunk.tokens tokenizer)

/-- For each byte of the encoded text, whether a special token spans it. -/
def controlOf (chunks : List Chunk) : List Bool := chunks.flatMap Chunk.control

end Gufo.Chat
