import SeaClaw.Lib.Bytes
import SeaClaw.Core.Error

/-!
# The text chunker

`sc_chunker_split` of `memory/vector/chunker.c`. A pointer into the text is an offset, and the
text from a pointer on is what is left of the octets there.
-/

namespace SeaClaw.Memory.Chunker

open SeaClaw.Lib

/-! ## The search for a split point -/

/-- `is_sentence_end` -/
def isSentenceEnd (c : UInt8) : Bool := c = ch '.' || c = ch '!' || c = ch '?'

/-- `is_space` -/
def isSpace (c : UInt8) : Bool := c = ch ' ' || c = ch '\t'

/-- Two line feeds at the pointer. -/
def endsParagraph (s : Bytes) : Bool := s[0]? = some (ch '\n') && s[1]? = some (ch '\n')

/-- The end of a sentence with a blank behind it at the pointer. -/
def endsSentence (s : Bytes) : Bool := s[0]?.any isSentenceEnd && s[1]?.any isSpace

/-- `best` and `best_dist` -/
structure Search where
  best : Option ℕ
  bestDist : ℕ

/-- A paragraph that ends too early is remembered. -/
def Search.paragraph (st : Search) (s : Bytes) (i : ℕ) : Search :=
  if endsParagraph s then ⟨some (i + 2), i⟩ else st

/-- A sentence that ends too early is remembered if it ends behind what is remembered. -/
def Search.sentence (st : Search) (s : Bytes) (i : ℕ) : Search :=
  if endsSentence s && st.bestDist < i + 1 then ⟨some (i + 1), i + 1⟩ else st

/-- A space is remembered if it is late enough and behind what is remembered. -/
def Search.word (st : Search) (minChunk : ℕ) (s : Bytes) (i : ℕ) : Search :=
  if s[0]? = some (ch ' ') && minChunk ≤ i && (st.best.isNone || st.bestDist < i) then
    ⟨some (i + 1), i⟩
  else st

/-- The loop of `find_split_point` at the offset `i`, with the text that is left there. -/
def splitScan (maxFromStart minChunk : ℕ) : Bytes → ℕ → Search → ℕ
  | [], i, st => st.best.getD i
  | c :: t, i, st =>
    if maxFromStart ≤ i then st.best.getD (i + (c :: t).length)
    else if endsParagraph (c :: t) && minChunk ≤ i then i + 2
    else if endsSentence (c :: t) && minChunk ≤ i + 1 then i + 1
    else splitScan maxFromStart minChunk t (i + 1)
      (((st.paragraph (c :: t) i).sentence (c :: t) i).word minChunk (c :: t) i)

/-- `find_split_point`: how far behind the pointer the split is. -/
def findSplitPoint (rest : Bytes) (maxFromStart minChunk : ℕ) : ℕ :=
  splitScan maxFromStart minChunk rest 0 ⟨none, 0⟩

/-! ## The chunks -/

/-- `sc_chunker_options_t` -/
structure ChunkerOptions where
  maxChunkSize : ℕ
  overlap : ℕ
  deriving DecidableEq

/-- `sc_text_chunk_t`, with the octets that its pointer and its length select. -/
structure TextChunk where
  text : Bytes
  offset : ℕ
  deriving DecidableEq

/-- How a call ends. Dividing by zero and writing behind the array are `undefined`, and
`unfinished` is a loop that has more rounds to go. -/
inductive Outcome where
  | unfinished
  | undefined
  | failed (e : ScError)
  | chunks (l : List TextChunk)
  deriving DecidableEq

/-- `max_chunk` -/
def ChunkerOptions.maxChunk (opts : ChunkerOptions) : ℕ :=
  if 0 < opts.maxChunkSize then opts.maxChunkSize else 512

/-- The number of elements of the array. -/
def ChunkerOptions.capacity (opts : ChunkerOptions) (textLen : ℕ) : ℕ :=
  textLen / (opts.maxChunk / 2) + 2

/-- Where the next chunk starts, behind a chunk that does not reach the end. -/
def ChunkerOptions.advance (opts : ChunkerOptions) (p chunkLen : ℕ) : ℕ :=
  if 0 < opts.overlap ∧ opts.overlap < chunkLen then p + chunkLen - opts.overlap else p + chunkLen

/-- The loop of `sc_chunker_split` for a number of rounds, with `p` and the chunks written. -/
def chunkLoop (opts : ChunkerOptions) (text : Bytes) : ℕ → ℕ → List TextChunk → Outcome
  | 0, _, _ => .unfinished
  | rounds + 1, p, l =>
    if text.length ≤ p then .chunks l
    else if opts.capacity text.length ≤ l.length then .undefined
    else if text.length - p ≤ opts.maxChunk then .chunks (l ++ [⟨text.drop p, p⟩])
    else
      let chunkLen := findSplitPoint (text.drop p) opts.maxChunk (opts.maxChunk / 4)
      if text.length ≤ p + chunkLen then .chunks (l ++ [⟨(text.drop p).take chunkLen, p⟩])
      else chunkLoop opts text rounds (opts.advance p chunkLen)
        (l ++ [⟨(text.drop p).take chunkLen, p⟩])

/-- `sc_chunker_split`; `allocated` and `trimmed` say whether the two allocations succeed. -/
def scChunkerSplit (allocated trimmed : Bool) (rounds : ℕ) (opts : ChunkerOptions)
    (text : Bytes) : Outcome :=
  if text = [] then .chunks []
  else if opts.maxChunk / 2 = 0 then .undefined
  else if !allocated then .failed .outOfMemory
  else
    match chunkLoop opts text rounds 0 [] with
    | .chunks l => if l = [] then .chunks [] else if trimmed then .chunks l else .failed .outOfMemory
    | outcome => outcome

end SeaClaw.Memory.Chunker
