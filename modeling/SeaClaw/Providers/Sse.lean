import SeaClaw.Sse.EventStream

/-!
# The event parser of the providers

The octets of a stream are fed in parts. Complete lines leave the buffer with the call that
reads them; the event that they belong to is a local of that call.
-/

namespace SeaClaw.Providers

open SeaClaw.Lib SeaClaw.Sse

/-- The loop of `parse_field` over the blanks after the colon. -/
def trimBlanks (value : Bytes) : Bytes := value.dropWhile fun b => b = ch ' ' || b = ch '\t'

/-- The arguments of a callback: the event type, and the data where there are any. -/
structure SseCall where
  eventType : Bytes
  data : Option Bytes
  deriving DecidableEq

/-- The event that a callback sees. -/
def SseCall.event (c : SseCall) : SseEvent := ⟨c.eventType, c.data.getD []⟩

/-- The locals `event_type` and `data` before an event has lines. -/
def noLines : SseCall := ⟨defaultType, none⟩

/-- A line of an event. -/
def SseCall.add (c : SseCall) : SseField → SseCall
  | .data v => { c with data := some (match c.data with | none => v | some d => d ++ [ch '\n'] ++ v) }
  | .event v => { c with eventType := v }
  | .other => c

/-- The loop over the lines of the buffer: the callbacks, and the octets that are kept. -/
def feedLoop : ℕ → SseCall → Bytes → List SseCall × Bytes
  | 0, _, s => ([], s)
  | n + 1, c, s =>
    match scanLine s with
    | none => ([], s)
    | some (line, rest) =>
      match readLine trimBlanks line with
      | none =>
        let r := feedLoop n noLines rest
        (c :: r.1, r.2)
      | some field => feedLoop n (c.add field) rest

/-- `sc_sse_parser_t` -/
structure SseParser where
  buffer : Bytes
  deriving DecidableEq

/-- `sc_sse_parser_init` -/
def scSseParserInit : SseParser := ⟨[]⟩

/-- `sc_sse_parser_feed`, with the callbacks that it makes. -/
def scSseParserFeed (p : SseParser) (bytes : Bytes) : SseParser × List SseCall :=
  if bytes = [] then (p, [])
  else
    let buffer := p.buffer ++ bytes
    let r := feedLoop buffer.length noLines buffer
    (⟨r.2⟩, r.1)

/-- The parts of a stream, one after another. -/
def feedParts : SseParser → List Bytes → List SseCall
  | _, [] => []
  | p, part :: parts =>
    (scSseParserFeed p part).2 ++ feedParts (scSseParserFeed p part).1 parts

/-!
# The parts of a stream and its events

Every way of cutting a stream into parts. A part that ends within an event loses the lines of
the event that are complete, and the events differ exactly when these lines mattered.
-/

/-- Every blank line is the end of an event. -/
def anyBlock (_ : List SseField) : Bool := true

/-- The events of a stream. -/
def streamEvents (s : Bytes) : List SseEvent := eventsFrom anyBlock [] (linesOf trimBlanks s)

/-- The fields up to the first blank line, when there is one. -/
def fieldsBefore : List (Option SseField) → Option (List SseField)
  | [] => none
  | none :: _ => some []
  | some field :: lines => (fieldsBefore lines).map (field :: ·)

/-- An event does not need its first fields: they have no data, or just an empty line when the
others have none, and give no type that counts. -/
def Spare (lost kept : List SseField) : Prop :=
  (dataValues lost = [] ∨ dataValues lost = [[]] ∧ dataValues kept = []) ∧
    (eventValues kept ≠ [] ∨ typeOf lost = defaultType)

instance (lost kept : List SseField) : Decidable (Spare lost kept) :=
  inferInstanceAs (Decidable (_ ∧ _))

/-- When the part ends an event, the event does not need the lines that were complete before
the part. -/
def SparesLines (before part : Bytes) : Prop :=
  ∀ kept, fieldsBefore (linesOf trimBlanks (partialLine before ++ part)) = some kept →
    Spare (blockAfter anyBlock [] (linesOf trimBlanks before)) kept

/-! ## One call -/

/-- The locals after the fields of a block. -/
def callOf (fields : List SseField) : SseCall :=
  ⟨typeOf fields, if dataValues fields = [] then none else some (dataOf fields)⟩

@[simp] theorem event_callOf (fields : List SseField) : (callOf fields).event = blockEvent fields := by
  rw [SseCall.event, callOf, blockEvent]
  by_cases h : dataValues fields = []
  · rw [if_pos h, dataOf_of_nil fields h]
    rfl
  · rw [if_neg h]
    rfl

theorem add_callOf (fields : List SseField) (field : SseField) :
    (callOf fields).add field = callOf (fields ++ [field]) := by
  cases field with
  | data v =>
    have hne : dataValues fields ++ [v] ≠ [] := List.concat_ne_nil v _
    simp only [callOf, SseCall.add, typeOf, eventValues_data, dataValues_data, if_neg hne,
      dataOf_data]
    by_cases h : dataValues fields = []
    · simp [h, dataOf_of_nil fields h]
    · simp [h]
  | event v => simp [callOf, SseCall.add, dataOf, typeOf]
  | other => simp [callOf, SseCall.add, dataOf, typeOf]

/-- The loop makes the callbacks for the events of its lines and keeps the rest. -/
theorem feedLoop_eq (n : ℕ) (fields : List SseField) (s : Bytes) :
    (feedLoop n (callOf fields) s).1.map SseCall.event =
        eventsFrom anyBlock fields ((decodeN scanLine n s).1.map (readLine trimBlanks)) ∧
      (feedLoop n (callOf fields) s).2 = (decodeN scanLine n s).2 := by
  induction n generalizing fields s with
  | zero => exact ⟨rfl, rfl⟩
  | succ n ih =>
    simp only [feedLoop, decodeN]
    cases hscan : scanLine s with
    | none => exact ⟨rfl, rfl⟩
    | some p =>
      obtain ⟨line, rest⟩ := p
      simp only [List.map_cons]
      cases hline : readLine trimBlanks line with
      | none =>
        obtain ⟨hevents, hrest⟩ := ih [] rest
        refine ⟨?_, hrest⟩
        simp only [List.map_cons, event_callOf, eventsFrom, anyBlock, if_true]
        exact congrArg _ hevents
      | some field =>
        simp only [add_callOf]
        exact ih (fields ++ [field]) rest

/-- A call makes the callbacks for the events of the lines that it completes. -/
theorem scSseParserFeed_eq {p : SseParser} (hp : partialLine p.buffer = p.buffer) (part : Bytes) :
    (scSseParserFeed p part).2.map SseCall.event =
        eventsFrom anyBlock [] (linesOf trimBlanks (p.buffer ++ part)) ∧
      (scSseParserFeed p part).1.buffer = partialLine (p.buffer ++ part) := by
  rw [scSseParserFeed]
  by_cases h : part = []
  · rw [if_pos h, h, List.append_nil, hp, ← hp, linesOf_partialLine, hp]
    exact ⟨rfl, rfl⟩
  · rw [if_neg h]
    exact feedLoop_eq _ [] _

/-! ## The lines that are lost -/

/-- An event is the same without its first fields exactly when it does not need them. -/
theorem blockEvent_append_iff (lost kept : List SseField) :
    blockEvent kept = blockEvent (lost ++ kept) ↔ Spare lost kept := by
  rw [SseEvent.ext_iff, and_comm]
  refine and_congr ?_ ?_
  · -- the data
    change dataOf kept = dataOf (lost ++ kept) ↔ _
    by_cases hl : dataValues lost = []
    · refine iff_of_true ?_ (Or.inl hl)
      rw [dataOf, dataOf, dataValues_append, hl, List.nil_append]
    · by_cases hk : dataValues kept = []
      · rw [dataOf_of_nil kept hk, dataOf, dataValues_append, hk, List.append_nil]
        simp only [hl, false_or, and_true]
        obtain ⟨v, vs, hv⟩ := List.exists_cons_of_ne_nil hl
        rw [hv]
        cases vs with
        | nil => simp [List.intercalate, eq_comm]
        | cons v' vs =>
          have := intercalate_append [ch '\n'] (List.cons_ne_nil v []) (List.cons_ne_nil v' vs)
          rw [List.singleton_append] at this
          rw [this]
          simp
      · rw [dataOf_append lost kept hl hk]
        simp only [hl, hk, false_or, and_false, iff_false]
        intro heq
        have := congrArg List.length heq
        simp only [List.length_append, List.length_singleton] at this
        omega
  · -- the type
    change typeOf kept = typeOf (lost ++ kept) ↔ _
    rw [typeOf_append]
    by_cases hk : eventValues kept = []
    · rw [if_pos hk]
      have : typeOf kept = defaultType := by
        rw [typeOf, hk]
        rfl
      rw [this]
      simp [hk, eq_comm]
    · rw [if_neg hk]
      exact iff_of_true rfl (Or.inl hk)

/-- The number of events does not depend on the fields before. -/
theorem length_eventsFrom (block block' : List SseField) (lines : List (Option SseField)) :
    (eventsFrom anyBlock block lines).length = (eventsFrom anyBlock block' lines).length := by
  induction lines generalizing block block' with
  | nil => rfl
  | cons line lines ih =>
    cases line with
    | none => rfl
    | some field => exact ih _ _

/-- Lost fields matter to the first event alone. -/
theorem eventsFrom_eq_iff (lost kept : List SseField) (lines : List (Option SseField)) :
    eventsFrom anyBlock kept lines = eventsFrom anyBlock (lost ++ kept) lines ↔
      ∀ more, fieldsBefore lines = some more → Spare lost (kept ++ more) := by
  induction lines generalizing kept with
  | nil => simp [eventsFrom, fieldsBefore]
  | cons line lines ih =>
    cases line with
    | none =>
      simp only [eventsFrom, anyBlock, if_true, List.cons.injEq, and_true, fieldsBefore,
        Option.some.injEq, forall_eq', List.append_nil]
      exact blockEvent_append_iff lost kept
    | some field =>
      simp only [eventsFrom, fieldsBefore, List.append_assoc, ih, Option.map_eq_some_iff]
      constructor
      · rintro h _ ⟨more, hmore, rfl⟩
        simpa using h more hmore
      · intro h more hmore
        simpa using h _ ⟨more, hmore, rfl⟩

/-! ## Every way of cutting -/

theorem feedParts_iff (before : Bytes) (parts : List Bytes) :
    (feedParts ⟨partialLine before⟩ parts).map SseCall.event =
        eventsFrom anyBlock (blockAfter anyBlock [] (linesOf trimBlanks before))
          (linesOf trimBlanks (partialLine before ++ parts.flatten)) ↔
      EveryPart SparesLines before parts := by
  induction parts generalizing before with
  | nil =>
    rw [List.flatten_nil, List.append_nil, linesOf_partialLine]
    exact iff_of_true rfl trivial
  | cons part parts ih =>
    obtain ⟨hevents, hbuffer⟩ := scSseParserFeed_eq (p := ⟨partialLine before⟩)
      (partialLine_partialLine before) part
    dsimp only at hevents hbuffer
    rw [← partialLine_append] at hbuffer
    have hnext : (scSseParserFeed ⟨partialLine before⟩ part).1 = ⟨partialLine (before ++ part)⟩ := by
      rw [← hbuffer]
    have hblock : blockAfter anyBlock (blockAfter anyBlock [] (linesOf trimBlanks before))
        (linesOf trimBlanks (partialLine before ++ part)) =
        blockAfter anyBlock [] (linesOf trimBlanks (before ++ part)) := by
      rw [linesOf_append trimBlanks before part, blockAfter_append]
    rw [feedParts, List.map_append, hevents, hnext, List.flatten_cons, ← List.append_assoc,
      linesOf_append trimBlanks (partialLine before ++ part), eventsFrom_append, hblock,
      ← partialLine_append, EveryPart, ← ih]
    -- both lists have the same number of events for the part
    constructor
    · intro h
      obtain ⟨hhere, hlater⟩ := List.append_inj h (length_eventsFrom _ _ _)
      refine ⟨?_, hlater⟩
      have := (eventsFrom_eq_iff (blockAfter anyBlock [] (linesOf trimBlanks before)) []
        (linesOf trimBlanks (partialLine before ++ part))).mp (by rwa [List.append_nil])
      simpa only [SparesLines, List.nil_append] using this
    · rintro ⟨hhere, hlater⟩
      rw [hlater]
      congr 1
      have := (eventsFrom_eq_iff (blockAfter anyBlock [] (linesOf trimBlanks before)) []
        (linesOf trimBlanks (partialLine before ++ part))).mpr (by simpa only [List.nil_append])
      rwa [List.append_nil] at this

/-- A stream that is fed in one call. -/
theorem event_feed_whole (s : Bytes) :
    (scSseParserFeed scSseParserInit s).2.map SseCall.event = streamEvents s :=
  (scSseParserFeed_eq rfl s).1

/-- The events of the parts are those of the whole stream exactly when no part ends an event
that needs a line of an earlier part. -/
theorem sse_parts_iff (parts : List Bytes) :
    (feedParts scSseParserInit parts).map SseCall.event =
          (scSseParserFeed scSseParserInit parts.flatten).2.map SseCall.event ∧
        (feedParts scSseParserInit parts).map SseCall.event = streamEvents parts.flatten ↔
      EveryPart SparesLines [] parts := by
  rw [event_feed_whole, and_self]
  exact feedParts_iff [] parts

/-- An event whose blank line comes in another part has no data. -/
theorem sse_parts_lose_data :
    ¬ ((feedParts scSseParserInit [ascii "data: a\n", ascii "\n"]).map SseCall.event =
          (scSseParserFeed scSseParserInit (ascii "data: a\n\n")).2.map SseCall.event ∧
        (feedParts scSseParserInit [ascii "data: a\n", ascii "\n"]).map SseCall.event =
          streamEvents (ascii "data: a\n\n")) := by
  decide

end SeaClaw.Providers
