import SeaClaw.Lib.CString
import SeaClaw.Lib.Machine
import SeaClaw.Lib.Socket
import SeaClaw.Lib.Strtol

/-!
# Reading HTTP requests

The accept loop reads a request up to its first blank line, takes the fields from the lines it has
read, fills the body buffer that all connections share, and hands over a copy of it. What a
connection alone says its request is stands beside it.
-/

namespace SeaClaw.Gateway

open SeaClaw.Lib

/-! ## Lines -/

/-- The octet that ends a line. -/
def lf : UInt8 := 10

/-- The octet before it where lines end in two. -/
def cr : UInt8 := 13

/-- What `strtok(s, "\n")` and the calls after it give: the lines that are not empty. -/
def strtokLines (s : Bytes) : List Bytes := (s.splitOnP (· = lf)).filter (· ≠ [])

/-- `trim_crlf` -/
def trimCrlf (s : Bytes) : Bytes := s.rdropWhile fun b => b = cr || b = lf

/-- `strncasecmp(line, name, strlen(name)) == 0` -/
def startsFold (name line : Bytes) : Bool := (line.take name.length).map toLower = name.map toLower

/-- One conversion `%ns` of `sscanf`: the word, and what is behind it. -/
def scanWord (n : ℕ) (s : Bytes) : Bytes × Bytes :=
  let s := s.dropWhile isSpace
  let word := (s.takeWhile fun b => !isSpace b).take n
  (word, s.drop word.length)

/-! ## WebSocket upgrades -/

/-- `extract_header`: the value of the first line with the name, unless it is too long. -/
def extractHeader (name : Bytes) (outSize : ℕ) : Bool → Bytes → Option Bytes
  | _, [] => none
  | atStart, b :: p =>
    if atStart && startsFold name (b :: p) && (b :: p)[name.length]? = some (ch ':') then
      let v := ((b :: p).drop (name.length + 1)).dropWhile (· = ch ' ')
      let v := v.takeWhile fun b => b ≠ cr && b ≠ lf
      if outSize ≤ v.length then none else some v
    else extractHeader name outSize (b = lf) p

/-- Whether a list of connection options has `Upgrade`. -/
def hasUpgrade : Bool → Bytes → Bool
  | _, [] => false
  | true, b :: p =>
    if b = ch ' ' || b = ch ',' then hasUpgrade true p
    else if startsFold (ascii "Upgrade") (b :: p) &&
        ((b :: p)[7]?.getD 0 ∈ [0, ch ',', ch ' ', cr, lf]) then true
    else hasUpgrade false p
  | false, b :: p => hasUpgrade (b = ch ',') p

/-- `sc_ws_server_is_upgrade` -/
def scWsServerIsUpgrade (req : Bytes) : Bool :=
  let text := (CString.ofBytes req).octets
  decide (20 ≤ req.length) &&
    match extractHeader (ascii "Upgrade") 32 true text,
      extractHeader (ascii "Connection") 64 true text with
    | some upgrade, some connection =>
      decide (SameFold upgrade (ascii "websocket")) && hasUpgrade true connection
    | _, _ => false

/-! ## Header fields -/

/-- What is taken from the lines of a request. -/
structure HttpFields where
  method : Bytes
  path : Bytes
  bodyLen : ℕ := 0
  sigHeader : Bytes := []
  origin : Bytes := []
  cookie : Bytes := []
  authHeader : Bytes := []
  deriving DecidableEq

/-- The answers to a request whose length is refused. -/
inductive HttpRefusal where
  | badRequest
  | bodyTooLarge
  deriving DecidableEq

/-- The value of a field, without the blanks before it and cut to a size. -/
def fieldValue (name line : Bytes) (size : ℕ) : Bytes :=
  ((line.drop name.length).dropWhile (· = ch ' ')).take (size - 1)

/-- Whether a line starts like a field of this name, and its value then. -/
def fieldOf (name line : Bytes) (size : ℕ) : Option Bytes :=
  if startsFold name line then some (fieldValue name line size) else none

/-- The names of the fields that are read. -/
def fieldNames : List Bytes :=
  [ascii "Content-Length:", ascii "X-Signature:", ascii "Origin:", ascii "Cookie:",
    ascii "Authorization:"]

/-- The length that a line gives, if it does: none if it is refused. -/
def contentLength (maxBody : ℕ) (line : Bytes) : Option (Except HttpRefusal ℕ) :=
  if startsFold (ascii "Content-Length:") line then
    let text := line.drop 15
    let v := strtol10 text
    if v < 0 ∨ ¬ (optSign (text.dropWhile isSpace)).2.head?.any isDigit then some (.error .badRequest)
    else if maxBody < v.toNat then some (.error .bodyTooLarge)
    else some (.ok v.toNat)
  else none

/-- One line of the header. -/
def HttpFields.line (f : HttpFields) (maxBody : ℕ) (line : Bytes) : Except HttpRefusal HttpFields :=
  match contentLength maxBody line with
  | some (.error e) => .error e
  | length => .ok { f with
      bodyLen := match length with
        | some (.ok n) => n
        | _ => f.bodyLen
      sigHeader := (fieldOf (ascii "X-Signature:") line 128).getD f.sigHeader
      origin := (fieldOf (ascii "Origin:") line 256).getD f.origin
      cookie := (fieldOf (ascii "Cookie:") line 512).getD f.cookie
      authHeader := (fieldOf (ascii "Authorization:") line 384).getD f.authHeader }

/-- The loop over the lines of the header, up to one that is blank. -/
def headerLines (maxBody : ℕ) : HttpFields → List Bytes → Except HttpRefusal HttpFields
  | f, [] => .ok f
  | f, l :: ls =>
    let l := trimCrlf l
    if l = [] then .ok f
    else
      match f.line maxBody l with
      | .ok f => headerLines maxBody f ls
      | .error e => .error e

/-- The method and the path of a request line. -/
def requestLine (line : Option Bytes) : HttpFields :=
  let method := scanWord 15 (line.getD [])
  { method := method.1, path := (scanWord 255 method.2).1 }

/-- The fields of lines, of which the first is the request line. -/
def fieldsOfLines (maxBody : ℕ) (lines : List Bytes) : Except HttpRefusal HttpFields :=
  headerLines maxBody (requestLine lines.head?) lines.tail

/-- The fields of a request, as far as its octets are a string. -/
def httpFields (maxBody : ℕ) (req : Bytes) : Except HttpRefusal HttpFields :=
  fieldsOfLines maxBody (strtokLines (CString.ofBytes req).octets)

/-! ## Reading -/

/-- `sizeof(req) - 1` -/
def reqMax : ℕ := 4095

/-- Where the body starts in a request: behind the first CR LF CR LF, or else behind the first
LF LF. -/
def bodyStart (req : Bytes) : Option ℕ :=
  let text := (CString.ofBytes req).octets
  match strstr [cr, lf, cr, lf] text with
  | some sep => some (text.length - sep.length + 4)
  | none => (strstr [lf, lf] text).map fun sep => text.length - sep.length + 2

/-- The loop that reads the head of a request, with the octets so far. -/
def readHeadLoop : ℕ → Bytes → Socket → Bytes × Socket
  | 0, req, s => (req, s)
  | fuel + 1, req, s =>
    if req.length < reqMax then
      match recv (reqMax - req.length) s with
      | ([], s) => (req, s)
      | (x, s) =>
        if (bodyStart (req ++ x)).isSome then (req ++ x, s) else readHeadLoop fuel (req ++ x) s
    else (req, s)

/-- The head of a request, with what was received behind it. Each `recv` adds at least one. -/
def readHead (s : Socket) : Bytes × Socket := readHeadLoop reqMax [] s

/-- The octets behind the head that were received with it. -/
def bodyPrefix (req : Bytes) : Bytes :=
  match bodyStart req with
  | some i => req.drop i
  | none => []

/-- The loop that receives the rest of a body, with the octets so far. -/
def recvBodyLoop (need : ℕ) : ℕ → Bytes → Socket → Bytes
  | 0, got, _ => got
  | fuel + 1, got, s =>
    if got.length < need then
      match recv (need - got.length) s with
      | ([], _) => got
      | (x, s) => recvBodyLoop need fuel (got ++ x) s
    else got

/-- Receives so many octets, or fewer at the end of the stream. -/
def recvBody (need : ℕ) (s : Socket) : Bytes := recvBodyLoop need need [] s

/-- Octets written into a buffer. -/
def overwrite (buf : Bytes) (i : ℕ) (x : Bytes) : Bytes := buf.take i ++ x ++ buf.drop (i + x.length)

/-- The body buffer once a body of this length was read. A prefix that is too long is not copied,
and counts all the same. -/
def fillBody (maxBody : ℕ) (buf pre : Bytes) (bodyLen : ℕ) (s : Socket) : Bytes :=
  let buf := if pre.length ≤ maxBody then overwrite buf 0 pre else buf
  if 0 < bodyLen then
    let got := min pre.length bodyLen
    let received := recvBody (bodyLen - got) s
    overwrite (overwrite buf got received) (got + received.length) [0]
  else buf

/-! ## Connections -/

/-- A connection: its address, the pieces it delivers before it ends, and whether memory and the
thread pool take its work item. -/
structure Connection where
  ip : Bytes
  pieces : Socket
  steady : ∀ x ∈ pieces, x ≠ []
  taken : Bool

/-- The octets of a connection. -/
def Connection.octets (c : Connection) : Bytes := c.pieces.flatten

/-- `sc_http_work_t` -/
structure HttpWork where
  clientIp : Bytes
  fields : HttpFields
  body : Bytes
  deriving DecidableEq

/-- What becomes of a connection. -/
inductive HttpOutcome where
  | closed
  | upgrade
  | refused (r : HttpRefusal)
  | unavailable
  | submitted (w : HttpWork)
  deriving DecidableEq

/-- One connection of the accept loop of `sc_gateway_run`, with the body buffer before and after. -/
def acceptOne (maxBody : ℕ) (buf : Bytes) (c : Connection) : HttpOutcome × Bytes :=
  let req := (readHead c.pieces).1
  let rest := (readHead c.pieces).2
  if req = [] then (.closed, buf)
  else if scWsServerIsUpgrade req then (.upgrade, buf)
  else
    let pre := bodyPrefix req
    match httpFields maxBody req with
    | .error e => (.refused e, if pre.length ≤ maxBody then overwrite buf 0 pre else buf)
    | .ok f =>
      let buf := fillBody maxBody buf pre f.bodyLen rest
      if c.taken then (.submitted ⟨c.ip, f, buf.take f.bodyLen⟩, buf)
      else (.unavailable, buf)

/-- The accept loop. -/
def acceptStep (maxBody : ℕ) (buf : Bytes) (c : Connection) : Option Bytes :=
  some (acceptOne maxBody buf c).2

/-! ## What a connection says alone -/

/-- A text cut at its first blank line: the lines before it, the blank line, and what follows. -/
def splitHead : Bytes → Option (Bytes × Bytes × Bytes)
  | [] => none
  | b :: s =>
    if b = lf ∧ s.head? = some lf then some ([lf], [lf], s.tail)
    else if b = lf ∧ [cr, lf] <+: s then some ([lf], [cr, lf], s.drop 2)
    else (splitHead s).map fun p => (b :: p.1, p.2)

/-- The parts of a text; without a blank line all of it is the head. -/
def headParts (s : Bytes) : Bytes × Bytes × Bytes := (splitHead s).getD (s, [], [])

/-- The work item of a connection: the fields of its head, and as many octets behind the blank line
as they say. There is none if these are not there. -/
def Connection.work (maxBody : ℕ) (c : Connection) : Option HttpWork :=
  let parts := headParts c.octets
  match httpFields maxBody parts.1 with
  | .error _ => none
  | .ok f =>
    if f.bodyLen ≤ parts.2.2.length then some ⟨c.ip, f, parts.2.2.take f.bodyLen⟩ else none

/-- Only the work item of the connection is submitted. -/
def OwnWork (maxBody : ℕ) (buf : Bytes) (c : Connection) : Prop :=
  ∀ w, (acceptOne maxBody buf c).1 = .submitted w → c.work maxBody = some w

end SeaClaw.Gateway
