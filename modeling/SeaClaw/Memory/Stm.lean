import SeaClaw.Core.Error
import SeaClaw.Lib.Binary64
import SeaClaw.Lib.CString
import SeaClaw.Lib.Machine
import SeaClaw.Memory.Entry

/-!
# Short-term memory

The turns of a session in a ring of slots. The counter of the turns decides where the next turn
goes and where a turn is read, and the oldest slot is cleared before the copies are made that
may find no memory. The history of the turns that were recorded is kept beside the buffer.
-/

namespace SeaClaw.Memory

open SeaClaw.Lib

/-- `SC_STM_MAX_TURNS` -/
def stmMaxTurns : ℕ := 20

/-- `SC_STM_MAX_ENTITIES` -/
def stmMaxEntities : ℕ := 50

/-- `SC_STM_MAX_EMOTIONS` -/
def stmMaxEmotions : ℕ := 5

/-- `sc_emotion_tag_t` -/
inductive EmotionTag where
  | neutral | joy | sadness | anger | fear | surprise | frustration | excitement | anxiety
  deriving DecidableEq

/-- `sc_stm_entity_t` -/
structure StmEntity where
  name : Text
  type : Text
  mentionCount : ℕ
  deriving DecidableEq

/-- `sc_stm_emotion_t` -/
structure StmEmotion where
  tag : EmotionTag
  intensity : Binary64
  deriving DecidableEq

/-- `sc_stm_turn_t`, with the entities and emotions that are counted. -/
structure StmTurn where
  role : Option Bytes
  content : Option Bytes
  contentLen : ℕ
  entities : List StmEntity
  emotions : List StmEmotion
  primaryTopic : Option Bytes
  timestampMs : ℕ
  occupied : Bool
  deriving DecidableEq

/-- A turn of zeros. -/
def StmTurn.zero : StmTurn := ⟨none, none, 0, [], [], none, 0, false⟩

/-- `struct sc_stm_buffer` -/
structure StmBuffer where
  turns : ℕ → StmTurn
  turnCount : ℕ
  head : ℕ

/-- `sc_stm_init` -/
def scStmInit : StmBuffer := ⟨fun _ => .zero, 0, 0⟩

/-- The buffer with another turn in a slot. -/
def StmBuffer.set (buf : StmBuffer) (slot : ℕ) (t : StmTurn) : StmBuffer :=
  { buf with turns := Function.update buf.turns slot t }

/-- `sc_strndup` of octets, by whether it finds memory. -/
def strndup (found : Bool) (s : Bytes) : Option Bytes :=
  if found then some (scStrndup (.ofBytes s)).octets else none

/-- `free_turn`, which leaves the emotions and the time. -/
def freeTurn (t : StmTurn) : StmTurn :=
  { t with
    role := none
    content := none
    contentLen := 0
    entities := []
    primaryTopic := none
    occupied := false }

/-- The slot of the next turn, and the buffer with the slot made free. -/
def nextSlot (buf : StmBuffer) : ℕ × StmBuffer :=
  if stmMaxTurns ≤ buf.turnCount then
    (buf.head, { buf.set buf.head (freeTurn (buf.turns buf.head)) with
      head := (buf.head + 1) % stmMaxTurns })
  else (buf.turnCount, buf)

/-- `sc_stm_record_turn` -/
def scStmRecordTurn (buf : StmBuffer) (role content : Bytes) (timestampMs : ℕ)
    (roleFound contentFound : Bool) : Except ScError Unit × StmBuffer :=
  let slot := (nextSlot buf).1
  let buf := (nextSlot buf).2
  let t := buf.turns slot
  match strndup roleFound role, strndup contentFound content with
  | none, _ => (.error .outOfMemory, buf.set slot { t with role := none })
  | some _, none => (.error .outOfMemory, buf.set slot { t with role := none, content := none })
  | some r, some c =>
    (.ok (), { buf.set slot ⟨some r, some c, content.length, [], [], none, timestampMs, true⟩ with
      turnCount := (buf.turnCount + 1) % 2 ^ 64 })

/-- `sc_stm_count` -/
def scStmCount (buf : StmBuffer) : ℕ :=
  if stmMaxTurns < buf.turnCount then stmMaxTurns else buf.turnCount

/-- The slot of the turn at an index. -/
def physical (buf : StmBuffer) (idx : ℕ) : ℕ :=
  if buf.turnCount ≤ stmMaxTurns then idx else (buf.head + idx) % stmMaxTurns

/-- `get_turn_mutable`, which gives the slot. -/
def getTurnMutable (buf : StmBuffer) (idx : ℕ) : Option ℕ :=
  if scStmCount buf ≤ idx then none
  else if (buf.turns (physical buf idx)).occupied then some (physical buf idx) else none

/-- `sc_stm_get` -/
def scStmGet (buf : StmBuffer) (idx : ℕ) : Option StmTurn :=
  if scStmCount buf ≤ idx then none
  else
    let t := buf.turns (physical buf idx)
    if t.occupied then some t else none

/-- The type of an entity, or the default where none is given. -/
def entityType (type : Bytes) : Bytes := if type = [] then ascii "entity" else type

/-- `sc_stm_turn_add_entity` -/
def scStmTurnAddEntity (buf : StmBuffer) (idx : ℕ) (name type : Bytes) (mentionCount : ℕ)
    (nameFound typeFound : Bool) : Except ScError Unit × StmBuffer :=
  match getTurnMutable buf idx with
  | none => (.error .invalidArgument, buf)
  | some slot =>
    let t := buf.turns slot
    if name = [] then (.error .invalidArgument, buf)
    else if stmMaxEntities ≤ t.entities.length then (.error .outOfMemory, buf)
    else
      match strndup nameFound name, strndup typeFound (entityType type) with
      | some n, some y =>
        (.ok (), buf.set slot { t with
          entities := t.entities ++
            [⟨⟨n, name.length⟩, ⟨y, (entityType type).length⟩, mentionCount⟩] })
      | _, _ => (.error .outOfMemory, buf)

/-- `sc_stm_turn_add_emotion` -/
def scStmTurnAddEmotion (buf : StmBuffer) (idx : ℕ) (tag : EmotionTag) (intensity : Binary64) :
    Except ScError Unit × StmBuffer :=
  match getTurnMutable buf idx with
  | none => (.error .invalidArgument, buf)
  | some slot =>
    let t := buf.turns slot
    if stmMaxEmotions ≤ t.emotions.length then (.error .outOfMemory, buf)
    else if t.emotions.any (·.tag = tag) then (.ok (), buf)
    else (.ok (), buf.set slot { t with emotions := t.emotions ++ [⟨tag, intensity⟩] })

/-- `sc_stm_turn_set_primary_topic`. The old topic goes before the copy is made. -/
def scStmTurnSetPrimaryTopic (buf : StmBuffer) (idx : ℕ) (topic : Bytes) (found : Bool) :
    Except ScError Unit × StmBuffer :=
  match getTurnMutable buf idx with
  | none => (.error .invalidArgument, buf)
  | some slot =>
    let t := buf.turns slot
    if topic = [] then (.ok (), buf.set slot { t with primaryTopic := none })
    else
      match strndup found topic with
      | none => (.error .outOfMemory, buf.set slot { t with primaryTopic := none })
      | some s => (.ok (), buf.set slot { t with primaryTopic := some s })

/-! ## The history -/

/-- A turn as it was recorded, with what was added to it since. -/
structure Turn where
  role : Bytes
  content : Bytes
  timestampMs : ℕ
  entities : List StmEntity
  emotions : List StmEmotion
  primaryTopic : Option Bytes

/-- A turn without annotations. -/
def Turn.recorded (role content : Bytes) (timestampMs : ℕ) : Turn :=
  ⟨role, content, timestampMs, [], [], none⟩

/-- The turn with one more entity. -/
def Turn.addEntity (t : Turn) (name type : Bytes) (mentionCount : ℕ) : Turn :=
  { t with entities := t.entities ++ [⟨.ofBytes name, .ofBytes (entityType type), mentionCount⟩] }

/-- The turn with an emotion, which it has once. -/
def Turn.addEmotion (t : Turn) (tag : EmotionTag) (intensity : Binary64) : Turn :=
  if t.emotions.any (·.tag = tag) then t
  else { t with emotions := t.emotions ++ [⟨tag, intensity⟩] }

/-- The turn with another topic, or none. -/
def Turn.setPrimaryTopic (t : Turn) (topic : Bytes) : Turn :=
  { t with primaryTopic := if topic = [] then none else some topic }

/-- The slot that holds a turn. -/
def Turn.stored (t : Turn) : StmTurn :=
  ⟨some t.role, some t.content, t.content.length, t.entities, t.emotions, t.primaryTopic,
    t.timestampMs, true⟩

/-- The turns that are remembered: the last ones of the history. -/
def recent (history : List Turn) : List Turn := history.drop (history.length - stmMaxTurns)

/-- The history with the remembered turn at an index changed. -/
def annotate (history : List Turn) (idx : ℕ) (f : Turn → Turn) : List Turn :=
  history.modify (history.length - stmMaxTurns + idx) f

/-- The buffer, and the turns whose record succeeded. -/
structure StmRun where
  buf : StmBuffer
  history : List Turn

/-- A call, with which of its copies find memory. -/
inductive StmOp where
  | recordTurn (role content : Bytes) (timestampMs : ℕ) (roleFound contentFound : Bool)
  | addEntity (idx : ℕ) (name type : Bytes) (mentionCount : ℕ) (nameFound typeFound : Bool)
  | addEmotion (idx : ℕ) (tag : EmotionTag) (intensity : Binary64)
  | setPrimaryTopic (idx : ℕ) (topic : Bytes) (found : Bool)

/-- What a call leaves of the buffer, and of the history where it succeeds. -/
def StmRun.after (s : StmRun) (r : Except ScError Unit × StmBuffer) (history : List Turn) :
    StmRun :=
  match r.1 with
  | .ok _ => ⟨r.2, history⟩
  | .error _ => ⟨r.2, s.history⟩

/-- One call. -/
def stmStep (s : StmRun) : StmOp → Option StmRun
  | .recordTurn role content timestampMs roleFound contentFound =>
    some (s.after (scStmRecordTurn s.buf role content timestampMs roleFound contentFound)
      (s.history ++ [.recorded role content timestampMs]))
  | .addEntity idx name type mentionCount nameFound typeFound =>
    some (s.after (scStmTurnAddEntity s.buf idx name type mentionCount nameFound typeFound)
      (annotate s.history idx (·.addEntity name type mentionCount)))
  | .addEmotion idx tag intensity =>
    some (s.after (scStmTurnAddEmotion s.buf idx tag intensity)
      (annotate s.history idx (·.addEmotion tag intensity)))
  | .setPrimaryTopic idx topic found =>
    some (s.after (scStmTurnSetPrimaryTopic s.buf idx topic found)
      (annotate s.history idx (·.setPrimaryTopic topic)))

/-- The buffer shows the turns that are remembered, with what was added to them. -/
def IsRecent (s : StmRun) : Prop :=
  scStmCount s.buf = min s.history.length stmMaxTurns ∧
    ∀ i, scStmGet s.buf i = (recent s.history)[i]?.map Turn.stored

/-- A record finds memory or a free slot, an earlier topic is replaced only with memory, the
texts have no NUL, and the counter does not come to its end. -/
def StmRun.Keeps (s : StmRun) : StmOp → Prop
  | .recordTurn role content _ roleFound contentFound =>
    if roleFound && contentFound then
      0 ∉ role ∧ 0 ∉ content ∧ s.buf.turnCount + 1 < 2 ^ 64
    else s.buf.turnCount < stmMaxTurns
  | .addEntity idx name type _ nameFound typeFound =>
    ∀ t, scStmGet s.buf idx = some t → t.entities.length < stmMaxEntities → name ≠ [] →
      (nameFound && typeFound) = true → 0 ∉ name ∧ 0 ∉ type
  | .addEmotion _ _ _ => True
  | .setPrimaryTopic idx topic found =>
    ∀ t, scStmGet s.buf idx = some t → topic ≠ [] →
      if found then 0 ∉ topic else t.primaryTopic = none

end SeaClaw.Memory
