import SeaClaw.Sse.EventStream
import SeaClaw.Lib.Machine

/-!
# The event client

The octets that the transport hands over go to the end of a buffer, which is then read from its
front. The event that is being built is in the locals of that reading. What stays in the buffer
is the partial line, unless no line was complete or no partial line is left.
-/

namespace SeaClaw.Sse

open SeaClaw.Lib

/-- `SC_SSE_MAX_EVENT_SIZE` -/
def maxEventSize : ℕ := 256 * 1024

/-- One blank after the colon goes. -/
def trimBlank (value : Bytes) : Bytes :=
  if value.head? = some (ch ' ') then value.tail else value

/-- The locals of `process_buffer` for the event that is being built. -/
structure EventLocals where
  eventType : Option Bytes
  data : Option Bytes
  dataLen : ℕ
  hasData : Bool
  totalEventSize : ℕ

/-- The locals before an event. -/
def noEvent : EventLocals := ⟨none, none, 0, false, 0⟩

/-- A line of the event. An event that grows too large is dropped, though not its length: a data
line after that would go behind octets that were never written. -/
def EventLocals.add (l : EventLocals) : SseField → Option EventLocals
  | .data value =>
    let newSize := l.totalEventSize + value.length + if l.hasData then 1 else 0
    if maxEventSize < newSize then
      some { l with eventType := none, data := none, hasData := false, totalEventSize := 0 }
    else if l.data = none ∧ l.dataLen ≠ 0 then none
    else
      let data := (l.data.getD [] ++ if l.hasData then [ch '\n'] else []) ++ value
      some { l with
        data := some data, dataLen := data.length, hasData := true, totalEventSize := newSize }
  | .event value => some { l with eventType := some value }
  | .other => some l

/-- The event for the callback. -/
def EventLocals.flush (l : EventLocals) : SseEvent :=
  ⟨l.eventType.getD defaultType, l.data.getD []⟩

/-- The loop of `process_buffer`: the events, and the octets from `line_start` on. -/
def processLoop : ℕ → EventLocals → Bytes → Option (List SseEvent × Bytes)
  | 0, _, s => some ([], s)
  | n + 1, l, s =>
    match scanLine s with
    | none => some ([], s)
    | some (line, rest) =>
      match readLine trimBlank line with
      | none =>
        if l.hasData then (processLoop n noEvent rest).map fun r => (l.flush :: r.1, r.2)
        else processLoop n l rest
      | some field => (l.add field).bind fun l => processLoop n l rest

/-- `process_buffer`: the events, and what is in the buffer afterwards. -/
def processBuffer (buf : Bytes) : Option (List SseEvent × Bytes) :=
  if buf = [] then some ([], [])
  else
    (processLoop buf.length noEvent buf).map fun r =>
      let keep := buf.length - r.2.length
      (r.1, if keep < buf.length ∧ 0 < keep then r.2 else if keep = 0 then [] else buf)

/-- `sse_ctx_t`, with the events that the callback got. -/
structure SseCtx where
  buf : Bytes
  delivered : List SseEvent
  deriving DecidableEq

/-- The context of a new connection. -/
def newCtx : SseCtx := ⟨[], []⟩

/-- `sse_write_cb` -/
def sseWriteCb (ctx : SseCtx) (ptr : Bytes) : Option SseCtx :=
  if ptr = [] then some ctx
  else (processBuffer (ctx.buf ++ ptr)).map fun r => ⟨r.2, ctx.delivered ++ r.1⟩

/-!
# The event client and the cuts of its stream

Every stream and every way of cutting it. What is delivered is what the stream says as long as
no cut leaves an event half read, a partial line with nothing before it, or a buffer that ends
with a line after an event was taken from it.
-/

/-- A blank line is the end of a block that has a data line. -/
def hasDataLine (block : List SseField) : Bool := dataValues block ≠ []

/-- The events of a stream. -/
def clientEvents (s : Bytes) : List SseEvent := eventsFrom hasDataLine [] (linesOf trimBlank s)

/-- No event grows beyond the limit. -/
def FitsFrom : List SseField → List (Option SseField) → Prop
  | _, [] => True
  | block, none :: lines => if hasDataLine block then FitsFrom [] lines else FitsFrom block lines
  | block, some field :: lines =>
    (dataOf (block ++ [field])).length ≤ maxEventSize ∧ FitsFrom (block ++ [field]) lines

instance decidableFitsFrom : ∀ block lines, Decidable (FitsFrom block lines)
  | _, [] => isTrue trivial
  | block, none :: lines =>
    have := decidableFitsFrom [] lines
    have := decidableFitsFrom block lines
    inferInstanceAs (Decidable (if hasDataLine block then FitsFrom [] lines
      else FitsFrom block lines))
  | block, some field :: lines =>
    have := decidableFitsFrom (block ++ [field]) lines
    inferInstanceAs (Decidable (_ ∧ FitsFrom (block ++ [field]) lines))

/-- The events of a stream are within the limit. -/
def Fits (s : Bytes) : Prop := FitsFrom [] (linesOf trimBlank s)

instance (s : Bytes) : Decidable (Fits s) := inferInstanceAs (Decidable (FitsFrom _ _))

/-- No event is being built: no data line was read, and no event line but for the usual type. -/
def Idle (block : List SseField) : Prop := dataValues block = [] ∧ typeOf block = defaultType

instance (block : List SseField) : Decidable (Idle block) := inferInstanceAs (Decidable (_ ∧ _))

/-- A chunk may end where it does: at the end of a line when the buffer has no event, or within
a line when there is a line before it and no event is being built. -/
def KeepsPlace (ctx : SseCtx) (ptr : Bytes) : Prop :=
  ptr = [] ∨
    if partialLine (ctx.buf ++ ptr) = [] then clientEvents (ctx.buf ++ ptr) = []
    else linesOf trimBlank (ctx.buf ++ ptr) ≠ [] ∧
      Idle (blockAfter hasDataLine [] (linesOf trimBlank (ctx.buf ++ ptr)))

instance (ctx : SseCtx) (ptr : Bytes) : Decidable (KeepsPlace ctx ptr) :=
  inferInstanceAs (Decidable (ptr = [] ∨
    if partialLine (ctx.buf ++ ptr) = [] then clientEvents (ctx.buf ++ ptr) = []
    else linesOf trimBlank (ctx.buf ++ ptr) ≠ [] ∧
      Idle (blockAfter hasDataLine [] (linesOf trimBlank (ctx.buf ++ ptr)))))

/-! ## One reading of the buffer -/

/-- The locals after the fields of a block. -/
def localsOf (fields : List SseField) : EventLocals where
  eventType := (eventValues fields).getLast?
  data := if dataValues fields = [] then none else some (dataOf fields)
  dataLen := (dataOf fields).length
  hasData := hasDataLine fields
  totalEventSize := (dataOf fields).length

theorem flush_localsOf (fields : List SseField) : (localsOf fields).flush = blockEvent fields := by
  rw [EventLocals.flush, localsOf, blockEvent, typeOf]
  by_cases h : dataValues fields = []
  · simp only [if_pos h, dataOf_of_nil fields h, Option.getD_none]
  · simp only [if_neg h, Option.getD_some]

theorem getD_data_localsOf (fields : List SseField) :
    (localsOf fields).data.getD [] = dataOf fields := by
  rw [localsOf]
  split_ifs with h
  · exact (dataOf_of_nil fields h).symm
  · rfl

/-- A field within the limit joins those before it. -/
theorem add_localsOf (fields : List SseField) (field : SseField)
    (hfit : (dataOf (fields ++ [field])).length ≤ maxEventSize) :
    (localsOf fields).add field = some (localsOf (fields ++ [field])) := by
  cases field with
  | data v =>
    have hdata : ((localsOf fields).data.getD [] ++
        if (localsOf fields).hasData then [ch '\n'] else []) ++ v =
          dataOf (fields ++ [.data v]) := by
      rw [getD_data_localsOf, dataOf_data]
      by_cases h : dataValues fields = []
      · simp [localsOf, hasDataLine, h]
      · simp [localsOf, hasDataLine, h]
    have hsize : (localsOf fields).totalEventSize + v.length +
        (if (localsOf fields).hasData then 1 else 0) = (dataOf (fields ++ [.data v])).length := by
      have htotal : (localsOf fields).totalEventSize = (dataOf fields).length := rfl
      rw [← hdata, List.length_append, List.length_append, getD_data_localsOf, htotal]
      cases (localsOf fields).hasData with
      | true =>
        simp
        omega
      | false => simp
    have hstale : ¬ ((localsOf fields).data = none ∧ (localsOf fields).dataLen ≠ 0) := by
      rintro ⟨hnone, hlen⟩
      refine hlen ?_
      simp only [localsOf] at hnone ⊢
      split_ifs at hnone with h
      rw [dataOf_of_nil fields h, List.length_nil]
    have hne : dataValues fields ++ [v] ≠ [] := List.concat_ne_nil v _
    simp only [EventLocals.add, hsize, if_neg (not_lt.mpr hfit), if_neg hstale, hdata]
    simp [localsOf, hasDataLine]
  | event v => simp [EventLocals.add, localsOf, dataOf, hasDataLine]
  | other => simp [EventLocals.add, localsOf, dataOf, hasDataLine]

/-- The loop delivers the events of its lines and stops in front of the partial line. -/
theorem processLoop_eq (n : ℕ) (fields : List SseField) (s : Bytes)
    (hfit : FitsFrom fields ((decodeN scanLine n s).1.map (readLine trimBlank))) :
    processLoop n (localsOf fields) s =
      some (eventsFrom hasDataLine fields ((decodeN scanLine n s).1.map (readLine trimBlank)),
        (decodeN scanLine n s).2) := by
  induction n generalizing fields s with
  | zero => rfl
  | succ n ih =>
    simp only [processLoop, decodeN] at hfit ⊢
    cases hscan : scanLine s with
    | none => rfl
    | some p =>
      obtain ⟨line, rest⟩ := p
      simp only [hscan, List.map_cons] at hfit ⊢
      cases hline : readLine trimBlank line with
      | none =>
        simp only [hline, FitsFrom, eventsFrom] at hfit ⊢
        change (if hasDataLine fields then _ else _) = _
        by_cases h : hasDataLine fields
        · rw [if_pos h] at hfit ⊢
          rw [if_pos h]
          change (processLoop n (localsOf []) rest).map _ = _
          rw [ih [] rest hfit, Option.map_some, flush_localsOf]
        · rw [if_neg h] at hfit ⊢
          rw [if_neg h]
          exact ih fields rest hfit
      | some field =>
        simp only [hline, FitsFrom] at hfit
        simp only [add_localsOf fields field hfit.1, Option.bind_some, eventsFrom]
        exact ih _ rest hfit.2

/-- What a reading delivers, and what it leaves in the buffer. -/
theorem processBuffer_eq {buf : Bytes} (hfit : Fits buf) :
    processBuffer buf = some (clientEvents buf,
      if partialLine buf = [] then buf
      else if linesOf trimBlank buf = [] then [] else partialLine buf) := by
  have hloop := processLoop_eq buf.length [] buf hfit
  by_cases hnil : buf = []
  · subst hnil
    rfl
  · rw [processBuffer, if_neg hnil]
    change (processLoop buf.length (localsOf []) buf).map _ = _
    rw [hloop, Option.map_some]
    refine congrArg some (Prod.ext rfl ?_)
    change (if buf.length - (partialLine buf).length < buf.length ∧
      0 < buf.length - (partialLine buf).length then partialLine buf
      else if buf.length - (partialLine buf).length = 0 then [] else buf) = _
    have hpos : 0 < buf.length := List.length_pos_iff.mpr hnil
    by_cases hpartial : partialLine buf = []
    · rw [if_pos hpartial, hpartial, List.length_nil, if_neg (by omega), if_neg (by omega)]
    · have hlen : 0 < (partialLine buf).length := List.length_pos_iff.mpr hpartial
      rw [if_neg hpartial]
      by_cases hlines : linesOf trimBlank buf = []
      · rw [if_pos hlines, partialLine_of_nil hlines, if_neg (by omega), if_pos (by omega)]
      · have hlt := length_partialLine_lt hlines
        rw [if_neg hlines, if_pos (by omega)]

/-! ## Idle places -/

theorem dataValues_of_idle {block : List SseField} (h : Idle block) (fields : List SseField) :
    dataValues (block ++ fields) = dataValues fields := by
  rw [dataValues_append, h.1, List.nil_append]

/-- Fields before an event that are not a part of it do not matter. -/
theorem blockEvent_of_idle {block : List SseField} (h : Idle block) (fields : List SseField) :
    blockEvent (block ++ fields) = blockEvent fields := by
  have htype : typeOf (block ++ fields) = typeOf fields := by
    rw [typeOf_append]
    split_ifs with hk
    · rw [h.2, typeOf, hk]
      rfl
    · rfl
  rw [blockEvent, blockEvent, htype, dataOf, dataOf, dataValues_of_idle h]

theorem eventsFrom_of_idle {block : List SseField} (h : Idle block) (fields : List SseField)
    (lines : List (Option SseField)) :
    eventsFrom hasDataLine (block ++ fields) lines = eventsFrom hasDataLine fields lines := by
  induction lines generalizing fields with
  | nil => rfl
  | cons line lines ih =>
    cases line with
    | none =>
      have hends : hasDataLine (block ++ fields) = hasDataLine fields := by
        rw [hasDataLine, dataValues_of_idle h, hasDataLine]
      simp only [eventsFrom, hends, blockEvent_of_idle h, ih]
    | some field =>
      simp only [eventsFrom, List.append_assoc]
      exact ih _

theorem fitsFrom_of_idle {block : List SseField} (h : Idle block) (fields : List SseField)
    (lines : List (Option SseField)) :
    FitsFrom (block ++ fields) lines ↔ FitsFrom fields lines := by
  induction lines generalizing fields with
  | nil => exact Iff.rfl
  | cons line lines ih =>
    cases line with
    | none =>
      have hends : hasDataLine (block ++ fields) = hasDataLine fields := by
        rw [hasDataLine, dataValues_of_idle h, hasDataLine]
      simp only [FitsFrom, hends, ih]
    | some field =>
      simp only [FitsFrom, List.append_assoc, ih]
      rw [dataOf, dataValues_of_idle h, dataOf]

theorem fitsFrom_append (block : List SseField) (lines more : List (Option SseField)) :
    FitsFrom block (lines ++ more) ↔
      FitsFrom block lines ∧ FitsFrom (blockAfter hasDataLine block lines) more := by
  induction lines generalizing block with
  | nil => exact (true_and _).to_iff.symm
  | cons line lines ih =>
    cases line with
    | none =>
      simp only [List.cons_append, FitsFrom, blockAfter]
      split_ifs
      · exact ih []
      · exact ih block
    | some field => simp only [List.cons_append, FitsFrom, blockAfter, ih, and_assoc]

/-! ## Every way of cutting -/

/-- Whatever follows, reading goes on from the buffer as from the whole of what came before. -/
structure InPlace (before : Bytes) (ctx : SseCtx) : Prop where
  events : ∀ s, clientEvents (before ++ s) = ctx.delivered ++ clientEvents (ctx.buf ++ s)
  fits : ∀ s, Fits (before ++ s) → Fits (ctx.buf ++ s)
  quiet : clientEvents ctx.buf = []

/-- A stream that is read up to an idle place goes on from the partial line. -/
theorem clientEvents_idle {buf : Bytes}
    (h : Idle (blockAfter hasDataLine [] (linesOf trimBlank buf))) (s : Bytes) :
    clientEvents (buf ++ s) = clientEvents buf ++ clientEvents (partialLine buf ++ s) ∧
      (Fits (buf ++ s) → Fits (partialLine buf ++ s)) := by
  have hidle := eventsFrom_of_idle h [] (linesOf trimBlank (partialLine buf ++ s))
  have hfits := fitsFrom_of_idle h [] (linesOf trimBlank (partialLine buf ++ s))
  rw [List.append_nil] at hidle hfits
  rw [clientEvents, Fits, linesOf_append, eventsFrom_append, fitsFrom_append, hidle, hfits]
  exact ⟨rfl, And.right⟩

theorem Fits.left {s t : Bytes} (h : Fits (s ++ t)) : Fits s := by
  rw [Fits, linesOf_append, fitsFrom_append] at h
  exact h.1

/-- A chunk that ends where it may keeps the place. -/
theorem InPlace.step {before : Bytes} {ctx : SseCtx} (h : InPlace before ctx) {ptr : Bytes}
    (hptr : KeepsPlace ctx ptr) (hfits : Fits (before ++ ptr)) :
    ∃ ctx', sseWriteCb ctx ptr = some ctx' ∧ InPlace (before ++ ptr) ctx' := by
  by_cases hnil : ptr = []
  · subst hnil
    rw [List.append_nil]
    exact ⟨ctx, if_pos rfl, h⟩
  · have hplace := hptr.resolve_left hnil
    rw [sseWriteCb, if_neg hnil, processBuffer_eq (h.fits ptr hfits), Option.map_some]
    have hevents (s : Bytes) : clientEvents (before ++ ptr ++ s) =
        ctx.delivered ++ clientEvents (ctx.buf ++ ptr ++ s) := by
      rw [List.append_assoc, h.events, List.append_assoc]
    have hfit (s : Bytes) : Fits (before ++ ptr ++ s) → Fits (ctx.buf ++ ptr ++ s) := by
      rw [List.append_assoc, List.append_assoc]
      exact h.fits (ptr ++ s)
    split_ifs at hplace ⊢ with hpartial hlines
    · refine ⟨_, rfl, fun s => ?_, hfit, hplace⟩
      rw [hevents, hplace, List.append_nil]
    · exact absurd hlines hplace.1
    · refine ⟨_, rfl, fun s => ?_, fun s hs => (clientEvents_idle hplace.2 s).2 (hfit s hs), ?_⟩
      · rw [hevents, (clientEvents_idle hplace.2 s).1, List.append_assoc]
      · simp [clientEvents, eventsFrom]

/-- The last chunk may end anywhere. -/
theorem InPlace.last {before : Bytes} {ctx : SseCtx} (h : InPlace before ctx) {ptr : Bytes}
    (hfits : Fits (before ++ ptr)) :
    (sseWriteCb ctx ptr).map (·.delivered) = some (clientEvents (before ++ ptr)) := by
  rw [h.events]
  by_cases hnil : ptr = []
  · rw [hnil, List.append_nil, h.quiet, List.append_nil]
    rfl
  · rw [sseWriteCb, if_neg hnil, processBuffer_eq (h.fits ptr hfits)]
    rfl

theorem inPlace_run {before : Bytes} {ctx : SseCtx} (h : InPlace before ctx) {chunks : List Bytes}
    (hchunks : Machine.EveryStep sseWriteCb KeepsPlace ctx chunks)
    (hfits : Fits (before ++ chunks.flatten)) :
    ∃ ctx', Machine.run sseWriteCb ctx chunks = some ctx' ∧
      InPlace (before ++ chunks.flatten) ctx' := by
  induction chunks generalizing before ctx with
  | nil =>
    rw [List.flatten_nil, List.append_nil]
    exact ⟨ctx, rfl, h⟩
  | cons ptr chunks ih =>
    obtain ⟨hptr, hrest⟩ := hchunks
    rw [List.flatten_cons, ← List.append_assoc] at hfits ⊢
    obtain ⟨ctx₁, hstep, h₁⟩ := h.step hptr hfits.left
    obtain ⟨ctx₂, hrun, h₂⟩ := ih h₁ (hrest ctx₁ hstep) hfits
    refine ⟨ctx₂, ?_, h₂⟩
    rw [Machine.run, hstep, Option.bind_some, hrun]

/-- The callback gets the events of the whole stream, each once and in order, when the events
are within the limit and every chunk but the last ends where it may. -/
theorem sse_client_delivers (chunks : List Bytes) (last : Bytes)
    (hfits : Fits (chunks.flatten ++ last))
    (hchunks : Machine.EveryStep sseWriteCb KeepsPlace newCtx chunks) :
    (Machine.run sseWriteCb newCtx (chunks ++ [last])).map (·.delivered) =
      some (clientEvents (chunks.flatten ++ last)) := by
  have hnew : InPlace [] newCtx := ⟨fun _ => rfl, fun _ => id, rfl⟩
  obtain ⟨ctx, hrun, h⟩ := inPlace_run hnew hchunks hfits.left
  rw [Machine.run_append, hrun, Option.bind_some]
  have hlast := h.last hfits
  rw [List.nil_append] at hlast
  rw [← hlast, Machine.run]
  cases sseWriteCb ctx last <;> rfl

/-- Two events with a cut in the first line of the second. -/
theorem sse_client_delivers_two :
    (Machine.run sseWriteCb newCtx [ascii "data: a\n\nda", ascii "ta: b\n\n"]).map
        (·.delivered) =
      some (clientEvents (ascii "data: a\n\nda" ++ ascii "ta: b\n\n")) :=
  sse_client_delivers [ascii "data: a\n\nda"] (ascii "ta: b\n\n") (by decide) (by decide)

/-- A chunk that ends after an event leaves it in the buffer, from where it is delivered again. -/
theorem sse_client_repeats :
    Fits (ascii "data: a\n\ndata: b\n\n") ∧
      (Machine.run sseWriteCb newCtx [ascii "data: a\n\n", ascii "data: b\n\n"]).map
          (·.delivered) ≠
        some (clientEvents (ascii "data: a\n\ndata: b\n\n")) := by
  decide

end SeaClaw.Sse
