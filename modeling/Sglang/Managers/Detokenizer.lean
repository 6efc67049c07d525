import Sglang.Lib.OrderedDict
import Sglang.Managers.CheckFinished

/-! # The detokenizer

Source: `python/sglang/srt/managers/detokenizer_manager.py`,
`DetokenizerManager.handle_batch_token_id_out` and `LimitedCapacityDict`; `python/sglang/utils.py`,
`find_printable_text`.

A message has one item for each request with new tokens. The manager keeps a decode status for each
request id, and sends the text that has become printable since the last message. The tokenizer is a
parameter. A result is `none` when the function raises an error. -/
set_option autoImplicit false

namespace Sglang.Detokenizer
open Sglang.Lib
open Sglang.Generation (Text TokenId FinishReason)

/-! ## Texts -/

def replacementChar : Char := Char.ofNat 0xFFFD

/-- `text.find(sub)` -/
def find (sub text : Text) : Option ℕ :=
  (List.range (text.length + 1)).find? fun i => sub.isPrefixOf (text.drop i)

/-- `_is_chinese_char` -/
def isChineseChar (c : Char) : Bool :=
  let cp := c.toNat
  (0x4E00 ≤ cp && cp ≤ 0x9FFF) || (0x3400 ≤ cp && cp ≤ 0x4DBF) || (0x20000 ≤ cp && cp ≤ 0x2A6DF) ||
    (0x2A700 ≤ cp && cp ≤ 0x2B73F) || (0x2B740 ≤ cp && cp ≤ 0x2B81F) ||
      (0x2B820 ≤ cp && cp ≤ 0x2CEAF) ||
    (0xF900 ≤ cp && cp ≤ 0xFAFF) || (0x2F800 ≤ cp && cp ≤ 0x2FA1F)

/-- `text[: text.rfind(" ") + 1]` -/
def uptoLastSpace (text : Text) : Text := (text.reverse.dropWhile (· ≠ ' ')).reverse

/-- `find_printable_text` -/
def findPrintableText (text : Text) : Text :=
  if text.getLast? = some '\n' then text
  else if text.getLast?.any isChineseChar then text
  else if text.dropLast.getLast?.any isChineseChar then text.dropLast
  else uptoLastSpace text

/-! ## Messages -/

/-- The arguments that `batch_decode` takes from the sampling parameters. -/
structure Options where
  skipSpecialTokens : Bool
  spacesBetweenSpecialTokens : Bool
  deriving DecidableEq

structure Config where
  /-- `tokenizer.batch_decode` for one list of tokens -/
  decode : Options → List TokenId → Text
  isToolCallParserGptOss : Bool
  /-- `DETOKENIZER_MAX_STATES` -/
  capacity : ℕ

/-- One position of a `BatchTokenIDOut`. -/
structure Item (ρ : Type) where
  rid : ρ
  finishedReason : Option FinishReason
  decodedText : Text
  decodeIds : List TokenId
  readOffset : ℕ
  options : Options
  noStopTrim : Bool

structure DecodeStatus where
  decodedText : Text
  decodeIds : List TokenId
  surrOffset : ℕ
  readOffset : ℕ
  sentOffset : ℕ

/-- The token `<|call|>` of gpt-oss -/
def callToken : TokenId := 200012

/-- `trim_matched_stop` for a list of tokens; the token `0` and the empty string are false in
Python. -/
def trimIds (cfg : Config) (output : List TokenId) (finishedReason : Option FinishReason)
    (noStopTrim : Bool) :
    Option (List TokenId) :=
  if noStopTrim then some output
  else match finishedReason with
    | some (.matchedToken matched) =>
      if matched = 0 then some output
      else output.getLast?.map fun last =>
        if last = callToken && cfg.isToolCallParserGptOss then output else output.dropLast
    | _ => some output

/-- `trim_matched_stop` for a text -/
def trimText (output : Text) (finishedReason : Option FinishReason) (noStopTrim : Bool) : Text :=
  if noStopTrim then output
  else match finishedReason with
    | some (.matchedStr matched) =>
      if matched = [] then output
      else match find matched output with
        | some pos => output.take pos
        | none => output
    | _ => output

section Manager
variable {ρ : Type} [DecidableEq ρ] (cfg : Config)

/-- `LimitedCapacityDict.__setitem__` -/
def setItem (d : OrderedDict ρ DecodeStatus) (rid : ρ) (s : DecodeStatus) :
    Option (OrderedDict ρ DecodeStatus) :=
  if cfg.capacity ≤ d.entries.length then d.popFirst.map fun x => x.2.insert rid s
  else some (d.insert rid s)

def DecodeStatus.new (x : Item ρ) : DecodeStatus := ⟨x.decodedText, x.decodeIds, 0, x.readOffset, 0⟩

def DecodeStatus.extend (s : DecodeStatus) (x : Item ρ) : DecodeStatus :=
  { s with decodeIds := s.decodeIds ++ x.decodeIds }

/-- `read_ids` and `surr_ids` of a request -/
def DecodeStatus.ids (s : DecodeStatus) (x : Item ρ) : Option (List TokenId × List TokenId) :=
  (trimIds cfg (s.decodeIds.drop s.surrOffset) x.finishedReason x.noStopTrim).map fun readIds =>
    (readIds, (s.decodeIds.take s.readOffset).drop s.surrOffset)

/-- The first loop for one item. -/
def openItem (d : OrderedDict ρ DecodeStatus) (x : Item ρ) :
    Option ((List TokenId × List TokenId) × OrderedDict ρ DecodeStatus) :=
  match d.get? x.rid with
  | none =>
    (setItem cfg d x.rid (.new x)).bind fun d =>
      ((DecodeStatus.new x).ids cfg x).map fun ids => (ids, d)
  | some s => ((s.extend x).ids cfg x).map fun ids => (ids, d.insert x.rid (s.extend x))

/-- The first loop. -/
def openBatch : OrderedDict ρ DecodeStatus → List (Item ρ) →
    Option (List (List TokenId × List TokenId) × OrderedDict ρ DecodeStatus)
  | d, [] => some ([], d)
  | d, x :: rest => (openItem cfg d x).bind fun y => (openBatch y.2 rest).map fun z => (y.1 :: z.1, z.2)

/-- The second loop for one status: the text to send and the new status. -/
def DecodeStatus.close (s : DecodeStatus) (x : Item ρ) (readText surrText : Text) :
    Text × DecodeStatus :=
  let newText := readText.drop surrText.length
  let (s, newText) :=
    if x.finishedReason.isNone then
      -- a streaming chunk updates the decode status
      if newText ≠ [] ∧ newText.getLast? ≠ some replacementChar then
        ({ s with
            decodedText := s.decodedText ++ newText
            surrOffset := s.readOffset
            readOffset := s.decodeIds.length }, [])
      else (s, findPrintableText newText)
    else (s, newText)
  let outputStr := trimText (s.decodedText ++ newText) x.finishedReason x.noStopTrim
  (outputStr.drop s.sentOffset, { s with sentOffset := outputStr.length })

/-- The second loop; a status that is not there any more is an error. -/
def closeBatch : OrderedDict ρ DecodeStatus → List (Item ρ × Text × Text) →
    Option (List Text × OrderedDict ρ DecodeStatus)
  | d, [] => some ([], d)
  | d, (x, readText, surrText) :: rest =>
    (d.get? x.rid).bind fun s =>
      let (out, s) := s.close x readText surrText
      (closeBatch (d.insert x.rid s) rest).map fun z => (out :: z.1, z.2)

/-- `handle_batch_token_id_out`: the `output_strs`; the options of the first item are used for all
of them. -/
def handleBatchTokenIdOut (d : OrderedDict ρ DecodeStatus) (batch : List (Item ρ)) :
    Option (List Text × OrderedDict ρ DecodeStatus) :=
  match batch with
  | [] => none
  | first :: _ => (openBatch cfg d batch).bind fun y =>
    closeBatch y.2 (batch.zip (y.1.map fun ids =>
      (cfg.decode first.options ids.1, cfg.decode first.options ids.2)))

/-! ## A request by itself -/

/-- The text that is sent for an item of a request whose status is `s` (none before its first item),
with the options of the request. -/
def solo (s : Option DecodeStatus) (x : Item ρ) : Option (Text × DecodeStatus) :=
  let s := s.elim (.new x) fun s => s.extend x
  (s.ids cfg x).map fun ids => s.close x (cfg.decode x.options ids.1) (cfg.decode x.options ids.2)

/-- The texts for the items that carry one request id. A request ends with the item that has a
finish reason; the next item belongs to another request. -/
def soloRun : Option DecodeStatus → List (Item ρ) → Option (List Text × Option DecodeStatus)
  | s, [] => some ([], s)
  | s, x :: rest =>
    (solo cfg s x).bind fun y =>
      (soloRun (if x.finishedReason.isNone then some y.2 else none) rest).map fun z => (y.1 :: z.1, z.2)

end Manager
end Sglang.Detokenizer
