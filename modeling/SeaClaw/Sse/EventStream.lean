import SeaClaw.Lib.Bytes
import SeaClaw.Lib.Stream

/-!
# Streams of events

A stream is read line by line. The lines up to a blank one describe an event: its data are the
values of the data lines, and its type is that of the last event line. The two readers of the
source take their lines and fields in the same way, except for the blanks after a colon.
-/

namespace SeaClaw.Sse

open SeaClaw.Lib

/-! ## Lines -/

/-- The scan for the end of a line, `\n` or `\r\n`: the octets before it and those after. -/
def scanLine : Bytes → Option (Bytes × Bytes)
  | [] => none
  | b :: s =>
    if b = ch '\n' then some ([], s)
    else if b = ch '\r' ∧ s.head? = some (ch '\n') then some ([], s.tail)
    else (scanLine s).map fun p => (b :: p.1, p.2)

/-- A line loses a `\r` at its end. -/
def trimCr (line : Bytes) : Bytes :=
  if line.getLast? = some (ch '\r') then line.dropLast else line

/-- A longer stream does not change the lines that are complete. -/
theorem streamStep_scanLine : StreamStep scanLine where
  append {s e r} h t := by
    induction s generalizing e with
    | nil => exact absurd h nofun
    | cons b s ih =>
      rw [List.cons_append]
      simp only [scanLine] at h ⊢
      split_ifs at h with hlf hcr
      · obtain ⟨rfl, rfl⟩ := Prod.mk.inj (Option.some.inj h)
        rw [if_pos hlf]
      · obtain ⟨rfl, rfl⟩ := Prod.mk.inj (Option.some.inj h)
        cases s with
        | nil => exact absurd hcr.2 nofun
        | cons c s =>
          rw [if_neg hlf, if_pos ⟨hcr.1, hcr.2⟩, List.cons_append, List.tail_cons, List.tail_cons]
      · obtain ⟨⟨l, r'⟩, hs, hp⟩ := Option.map_eq_some_iff.mp h
        obtain ⟨rfl, rfl⟩ := Prod.mk.inj hp
        cases s with
        | nil => exact absurd hs nofun
        | cons c s =>
          rw [List.cons_append, List.head?_cons] at *
          rw [if_neg hlf, if_neg hcr, ih hs, Option.map_some]
  progress {s e r} h := by
    induction s generalizing e with
    | nil => exact absurd h nofun
    | cons b s ih =>
      simp only [scanLine] at h
      split_ifs at h with hlf hcr
      · obtain ⟨-, rfl⟩ := Prod.mk.inj (Option.some.inj h)
        exact Nat.lt_succ_self _
      · obtain ⟨-, rfl⟩ := Prod.mk.inj (Option.some.inj h)
        rw [List.length_tail, List.length_cons]
        omega
      · obtain ⟨⟨l, r'⟩, hs, hp⟩ := Option.map_eq_some_iff.mp h
        obtain ⟨-, rfl⟩ := Prod.mk.inj hp
        have := ih hs
        rw [List.length_cons]
        omega

/-! ## Fields -/

/-- What a line means for the event. -/
inductive SseField where
  | data (value : Bytes)
  | event (value : Bytes)
  | other
  deriving DecidableEq

/-- `parse_field`: the octets before the first colon and those after it, without the blanks
that the reader trims. -/
def parseField (trim : Bytes → Bytes) (line : Bytes) : Bytes × Bytes :=
  (line.takeWhile (· ≠ ch ':'), trim (line.dropWhile (· ≠ ch ':')).tail)

/-- A line that is not blank: a comment, a data line, an event line or something else. -/
def lineField (trim : Bytes → Bytes) (line : Bytes) : SseField :=
  if line.head? = some (ch ':') then .other
  else
    let p := parseField trim line
    if p.1 = ascii "data" then .data p.2
    else if p.1 = ascii "event" then .event p.2
    else .other

/-- What a line says; `none` for a blank line. -/
def readLine (trim : Bytes → Bytes) (line : Bytes) : Option SseField :=
  if trimCr line = [] then none else some (lineField trim (trimCr line))

/-! ## Events -/

/-- An event as its receiver sees it. -/
@[ext] structure SseEvent where
  eventType : Bytes
  data : Bytes
  deriving DecidableEq

/-- The values of the data lines. -/
def dataValues (fields : List SseField) : List Bytes :=
  fields.filterMap fun
    | .data v => some v
    | _ => none

/-- The values of the event lines. -/
def eventValues (fields : List SseField) : List Bytes :=
  fields.filterMap fun
    | .event v => some v
    | _ => none

/-- The type of an event without an event line. -/
def defaultType : Bytes := ascii "message"

/-- The type that the last event line gives. -/
def typeOf (fields : List SseField) : Bytes := (eventValues fields).getLast?.getD defaultType

/-- The values of the data lines, with a newline between each two. -/
def dataOf (fields : List SseField) : Bytes := [ch '\n'].intercalate (dataValues fields)

/-- The event that the lines of a block describe. -/
def blockEvent (fields : List SseField) : SseEvent := ⟨typeOf fields, dataOf fields⟩

section Values

variable (fields more : List SseField)

theorem dataValues_append :
    dataValues (fields ++ more) = dataValues fields ++ dataValues more :=
  List.filterMap_append

theorem eventValues_append :
    eventValues (fields ++ more) = eventValues fields ++ eventValues more :=
  List.filterMap_append

@[simp] theorem dataValues_data (v : Bytes) :
    dataValues (fields ++ [.data v]) = dataValues fields ++ [v] := dataValues_append _ _

@[simp] theorem dataValues_event (v : Bytes) :
    dataValues (fields ++ [.event v]) = dataValues fields := by
  rw [dataValues_append]
  exact List.append_nil _

@[simp] theorem dataValues_other : dataValues (fields ++ [.other]) = dataValues fields := by
  rw [dataValues_append]
  exact List.append_nil _

@[simp] theorem eventValues_data (v : Bytes) :
    eventValues (fields ++ [.data v]) = eventValues fields := by
  rw [eventValues_append]
  exact List.append_nil _

@[simp] theorem eventValues_event (v : Bytes) :
    eventValues (fields ++ [.event v]) = eventValues fields ++ [v] := eventValues_append _ _

@[simp] theorem eventValues_other : eventValues (fields ++ [.other]) = eventValues fields := by
  rw [eventValues_append]
  exact List.append_nil _

/-- The last event line counts. -/
theorem typeOf_append :
    typeOf (fields ++ more) = if eventValues more = [] then typeOf fields else typeOf more := by
  rw [typeOf, eventValues_append]
  by_cases h : eventValues more = []
  · rw [if_pos h, h, List.append_nil, typeOf]
  · rw [if_neg h, List.getLast?_append_of_ne_nil _ h, typeOf]

theorem intercalate_append (sep : Bytes) {xs ys : List Bytes} (hx : xs ≠ []) (hy : ys ≠ []) :
    sep.intercalate (xs ++ ys) = sep.intercalate xs ++ sep ++ sep.intercalate ys := by
  induction xs with
  | nil => exact absurd rfl hx
  | cons x xs ih =>
    obtain ⟨y, ys, rfl⟩ := List.exists_cons_of_ne_nil hy
    cases xs with
    | nil => simp [List.intercalate]
    | cons x' xs =>
      have := ih (List.cons_ne_nil x' xs)
      simp only [List.intercalate, List.cons_append, List.intersperse_cons_cons,
        List.flatten_cons] at this ⊢
      rw [this]
      simp

/-- Data lines after others are joined to them by a newline. -/
theorem dataOf_append (hf : dataValues fields ≠ []) (hm : dataValues more ≠ []) :
    dataOf (fields ++ more) = dataOf fields ++ [ch '\n'] ++ dataOf more := by
  rw [dataOf, dataValues_append, intercalate_append _ hf hm, dataOf, dataOf]

theorem dataOf_of_nil (h : dataValues fields = []) : dataOf fields = [] := by
  rw [dataOf, h]
  rfl

/-- A data line after the fields of a block. -/
theorem dataOf_data (v : Bytes) :
    dataOf (fields ++ [.data v]) =
      (dataOf fields ++ if dataValues fields = [] then [] else [ch '\n']) ++ v := by
  by_cases h : dataValues fields = []
  · rw [if_pos h, dataOf_of_nil fields h, dataOf, dataValues_data, h]
    simp [List.intercalate]
  · rw [if_neg h, dataOf, dataValues_data, intercalate_append _ h (List.cons_ne_nil _ _), dataOf]
    simp [List.intercalate]

end Values

/-! ## What is read from a stream -/

/-- What the complete lines of a stream say. -/
def linesOf (trim : Bytes → Bytes) (s : Bytes) : List (Option SseField) :=
  (decodeAll scanLine s).1.map (readLine trim)

/-- The octets after the last complete line. -/
def partialLine (s : Bytes) : Bytes := (decodeAll scanLine s).2

theorem linesOf_append (trim : Bytes → Bytes) (s t : Bytes) :
    linesOf trim (s ++ t) = linesOf trim s ++ linesOf trim (partialLine s ++ t) := by
  rw [linesOf, decodeAll_append streamStep_scanLine, List.map_append]
  rfl

theorem partialLine_append (s t : Bytes) :
    partialLine (s ++ t) = partialLine (partialLine s ++ t) := by
  rw [partialLine, decodeAll_append streamStep_scanLine]
  rfl

@[simp] theorem linesOf_partialLine (trim : Bytes → Bytes) (s : Bytes) :
    linesOf trim (partialLine s) = [] := by
  rw [linesOf, partialLine, decodeAll_of_none (step_rest streamStep_scanLine s), List.map_nil]

@[simp] theorem partialLine_partialLine (s : Bytes) :
    partialLine (partialLine s) = partialLine s := by
  rw [partialLine, partialLine, decodeAll_of_none (step_rest streamStep_scanLine s)]

/-- Without a complete line there is nothing but the partial one. -/
theorem partialLine_of_nil {trim : Bytes → Bytes} {s : Bytes} (h : linesOf trim s = []) :
    partialLine s = s := by
  cases hs : scanLine s with
  | none => rw [partialLine, decodeAll_of_none hs]
  | some p => simp [linesOf, decodeAll_of_some streamStep_scanLine hs] at h

/-- A complete line is in front of the partial one. -/
theorem length_partialLine_lt {trim : Bytes → Bytes} {s : Bytes} (h : linesOf trim s ≠ []) :
    (partialLine s).length < s.length := by
  cases hs : scanLine s with
  | none => simp [linesOf, decodeAll_of_none hs] at h
  | some p =>
    rw [partialLine, decodeAll_of_some streamStep_scanLine hs]
    exact (length_rest_le streamStep_scanLine p.2).trans_lt (streamStep_scanLine.progress hs)

section Blocks

variable (ends : List SseField → Bool)

/-- The events of lines after the fields of a block, where `ends` says of which blocks a blank
line is the end. -/
def eventsFrom : List SseField → List (Option SseField) → List SseEvent
  | _, [] => []
  | block, none :: lines =>
    if ends block then blockEvent block :: eventsFrom [] lines else eventsFrom block lines
  | block, some field :: lines => eventsFrom (block ++ [field]) lines

/-- The fields of the block that is not at its end. -/
def blockAfter : List SseField → List (Option SseField) → List SseField
  | block, [] => block
  | block, none :: lines => if ends block then blockAfter [] lines else blockAfter block lines
  | block, some field :: lines => blockAfter (block ++ [field]) lines

theorem eventsFrom_append (block : List SseField) (lines more : List (Option SseField)) :
    eventsFrom ends block (lines ++ more) =
      eventsFrom ends block lines ++ eventsFrom ends (blockAfter ends block lines) more := by
  induction lines generalizing block with
  | nil => rfl
  | cons line lines ih =>
    cases line with
    | none =>
      simp only [List.cons_append, eventsFrom, blockAfter]
      by_cases h : ends block
      · rw [if_pos h, if_pos h, if_pos h, ih, List.cons_append]
      · rw [if_neg h, if_neg h, if_neg h, ih]
    | some field => exact ih _

theorem blockAfter_append (block : List SseField) (lines more : List (Option SseField)) :
    blockAfter ends block (lines ++ more) = blockAfter ends (blockAfter ends block lines) more := by
  induction lines generalizing block with
  | nil => rfl
  | cons line lines ih =>
    cases line with
    | none =>
      simp only [List.cons_append, blockAfter]
      by_cases h : ends block
      · rw [if_pos h, if_pos h, ih]
      · rw [if_neg h, if_neg h, ih]
    | some field => exact ih _

end Blocks

/-- A condition on every part of a stream and what comes before it. -/
def EveryPart (P : Bytes → Bytes → Prop) : Bytes → List Bytes → Prop
  | _, [] => True
  | before, part :: parts => P before part ∧ EveryPart P (before ++ part) parts

end SeaClaw.Sse
