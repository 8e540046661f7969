import Mathlib.Tactic
import ResDB.Library.Framing
import ResDB.Library.MachineInt
import ResDB.Library.TableCode
import ResDB.Recovery.Log

/-! The bytes of a log file. `AppendData` frames an item in the buffer and `Flush` frames the
buffer in the file, so that the file is a sequence of blocks of items: one block with the
system information, and one with the request and the signature for each call of `WriteLog`. A
prefix of such a file is read back as the records that are whole in it. -/
namespace ResDB.Wal
open Framing
open MachineInt (IsInt)
open Pbft (Request RequestInfo RequestType)
open Recovery (recovered)

/-- `SystemInfoData`, both of its fields `int32`. -/
structure SystemInfoData where
  view : Int := 0
  primaryId : Int := 0
  deriving DecidableEq, Encodable

/-- The messages as strings. Parsing undoes serialising, if the fields of a message have values
of their types, and the empty string is the signature without a field set. -/
structure LogFormat where
  request : Request → Bytes
  parseRequest : Bytes → Option Request
  signature : SignatureInfo → Bytes
  parseSignature : Bytes → Option SignatureInfo
  systemInfo : SystemInfoData → Bytes
  parseSystemInfo : Bytes → Option SystemInfoData
  TypedRequest : Request → Prop
  TypedSignature : SignatureInfo → Prop
  TypedInfo : SystemInfoData → Prop
  parseRequest_request : ∀ r, TypedRequest r → parseRequest (request r) = some r
  parseSignature_signature : ∀ s, TypedSignature s → parseSignature (signature s) = some s
  parseSignature_nil : parseSignature [] = some {}
  parseSystemInfo_systemInfo : ∀ info, TypedInfo info →
    parseSystemInfo (systemInfo info) = some info

/-- The signature of a context, which is a pointer that may be null. -/
def LogFormat.contextData (format : LogFormat) : Option SignatureInfo → Bytes
  | none => []
  | some signature => format.signature signature

structure Writer where
  file : Bytes := []
  buffer : Bytes := []
  deriving DecidableEq

inductive Callback where
  | systemCallback (data : SystemInfoData)
  | callBack (info : RequestInfo)
  deriving DecidableEq

section Writing
variable (format : LogFormat) (w : Writer)

def Writer.appendData (data : Bytes) : Writer :=
  { w with buffer := w.buffer ++ frame data }

def Writer.flush : Writer :=
  if w.buffer.length = 0 then w
  else { file := w.file ++ frame w.buffer, buffer := [] }

def Writer.writeSystemInfo (info : SystemInfoData) : Writer :=
  (w.appendData (format.systemInfo info)).flush

def Writer.writeLog (context : Option SignatureInfo) (request : Request) : Writer :=
  ((w.appendData (format.request request)).appendData (format.contextData context)).flush

/-- The length of the file is kept in an `int`. Everything is written to its end. -/
def Writer.openFile (info : SystemInfoData) : Writer :=
  if w.file.length % 2 ^ 32 = 0 then w.writeSystemInfo format info else w

end Writing

section Reading
variable (format : LogFormat)

/-- The loop of `ParseRawData`, which is also the first one of `ParseData`. The position is an
`int`: a length that is not that of an item may set it back. A length that is read past the end
of the string is undefined, and so is a position that does not come to the end. -/
def parseItems (data : Bytes) : ℕ → ℕ → Option (List Bytes)
  | 0, _ => none
  | fuel + 1, pos =>
      if pos < 2 ^ 31 ∧ pos < data.length then
        if pos + 8 < 2 ^ 31 ∧ pos + 8 ≤ data.length then
          let len := decodeLE ((data.drop pos).take 8)
          (parseItems data fuel ((pos + 8 + len) % 2 ^ 32)).map (fun list =>
            (data.drop (pos + 8)).take len :: list)
        else none
      else some []

def parseRawData (data : Bytes) : Option (List Bytes) := parseItems data (data.length + 1) 0

/-- The second loop of `ParseData`. A request without an item behind it reads past the end of
the list. -/
def parsePairs : List Bytes → Option (List RequestInfo)
  | [] => some []
  | [item] => if (format.parseRequest item).isSome then none else some []
  | item :: sig :: rest =>
      match format.parseRequest item, format.parseSignature sig with
      | some request, some signature => (parsePairs rest).map (fun list =>
          { request := request, signature := signature } :: list)
      | _, _ => some []

def parseData (data : Bytes) : Option (List RequestInfo) :=
  (parseRawData data).bind (parsePairs format)

/-- The loop of `ReadLogsFromFiles`, over the blocks that `Read` gets in full. -/
def readBlocks : List Bytes → List RequestInfo → Option (List RequestInfo)
  | [], requestList => some requestList
  | data :: rest, requestList =>
      match parseData format data with
      | none => none
      | some [] => some []
      | some (info :: list) => readBlocks rest (requestList ++ info :: list)

/-- `ReadLogsFromFiles` on the bytes of a file, or `none` if it does not return. Whether the
first length was read in full is not checked: of a shorter file, `data_len` has the bytes there
are. A length that no array can have makes `new char[]` throw in the source; here it is one that
the file does not have, as any other. The `ftruncate` at the end is on a descriptor for reading,
where it has no effect. -/
def readLogsFromFiles (file : Bytes) (ckpt fileIdx : ℕ) : Option (List Callback) :=
  let dataLen := decodeLE (file.take 8)
  if (file.drop 8).length < dataLen then some []
  else
    match parseRawData ((file.drop 8).take dataLen) with
    | none => none
    | some [] => some []
    | some (item :: _) =>
        match format.parseSystemInfo item with
        | none => some []
        | some info =>
            let rest := (file.drop 8).drop dataLen
            (readBlocks format (scan rest.length rest).1 []).map (fun requestList =>
              (if fileIdx = 0 then [Callback.systemCallback info] else []) ++
                (requestList.filter (fun info => ckpt < info.request.seq)).map (fun info =>
                  Callback.callBack (recovered info)))

end Reading

structure Entry where
  context : Option SignatureInfo
  request : Request
  deriving DecidableEq

def Entry.info (e : Entry) : RequestInfo where
  request := e.request
  signature := e.context.getD {}

def Entry.Typed (format : LogFormat) (e : Entry) : Prop :=
  format.TypedRequest e.request ∧ ∀ signature ∈ e.context, format.TypedSignature signature

section Blocks
variable (format : LogFormat)

def Entry.items (e : Entry) : List Bytes :=
  [format.request e.request, format.contextData e.context]

def Entry.body (e : Entry) : Bytes := frames (e.items format)

def systemBody (info : SystemInfoData) : Bytes := frames [format.systemInfo info]

def blocks (info : SystemInfoData) (entries : List Entry) : List Bytes :=
  systemBody format info :: entries.map (Entry.body format)

/-- A file that `OpenFile` created, after calls of `WriteLog`. -/
def written (info : SystemInfoData) (entries : List Entry) : Writer :=
  entries.foldl (fun w e => w.writeLog format e.context e.request)
    (({} : Writer).openFile format info)

variable {format} {w : Writer}

theorem Writer.flush_appendData (w : Writer) (data : Bytes) :
    (w.appendData data).flush =
      { file := w.file ++ frame (w.buffer ++ frame data), buffer := [] } := by
  have filled : ¬(w.appendData data).buffer.length = 0 := by
    rw [appendData, List.length_append, length_frame]
    omega
  rw [flush, if_neg filled]
  rfl

theorem Writer.writeSystemInfo_eq (idle : w.buffer = []) (info : SystemInfoData) :
    w.writeSystemInfo format info =
      { file := w.file ++ frame (systemBody format info), buffer := [] } := by
  rw [writeSystemInfo, flush_appendData, idle, systemBody, frames_singleton, List.nil_append]

theorem Writer.writeLog_eq (idle : w.buffer = []) (e : Entry) :
    w.writeLog format e.context e.request =
      { file := w.file ++ frame (e.body format), buffer := [] } := by
  rw [writeLog, flush_appendData, Entry.body, Entry.items, frames_cons, frames_singleton]
  rw [appendData, idle, List.nil_append]

theorem foldl_writeLog (idle : w.buffer = []) (entries : List Entry) :
    entries.foldl (fun w e => w.writeLog format e.context e.request) w =
      { file := w.file ++ frames (entries.map (Entry.body format)), buffer := [] } := by
  induction entries generalizing w with
  | nil =>
      obtain ⟨file, buffer⟩ := w
      obtain rfl : buffer = [] := idle
      simp [frames]
  | cons e entries ih =>
      rw [List.foldl_cons, w.writeLog_eq idle e, ih rfl, List.map_cons, frames_cons,
        List.append_assoc]

theorem written_eq (info : SystemInfoData) (entries : List Entry) :
    written format info entries =
      { file := frames (blocks format info entries), buffer := [] } := by
  have opened : ({} : Writer).openFile format info =
      { file := frame (systemBody format info), buffer := [] } :=
    Writer.writeSystemInfo_eq (w := {}) rfl info
  rw [written, opened, foldl_writeLog rfl, blocks, frames_cons]

end Blocks

section RoundTrip
variable {format : LogFormat}

theorem parseItems_frames (before : Bytes) (items : List Bytes) {fuel : ℕ}
    (enough : items.length < fuel) (small : (before ++ frames items).length < 2 ^ 31) :
    parseItems (before ++ frames items) fuel before.length = some items := by
  induction items generalizing before fuel with
  | nil =>
      obtain ⟨fuel, rfl⟩ : ∃ less, fuel = less + 1 := ⟨fuel - 1, by simp at enough; omega⟩
      rw [parseItems, if_neg]
      simp [frames]
  | cons item items ih =>
      obtain ⟨fuel, rfl⟩ : ∃ less, fuel = less + 1 := ⟨fuel - 1, by omega⟩
      rw [List.length_cons] at enough
      rw [frames_cons, ← List.append_assoc] at small ⊢
      have whole : (before ++ frame item).length = before.length + 8 + item.length := by
        rw [List.length_append, length_frame, add_assoc]
      have size := small
      rw [List.length_append, whole] at size
      have inside : before.length < ((before ++ frame item) ++ frames items).length := by
        rw [List.length_append, whole]
        omega
      have length : before.length + 8 ≤ ((before ++ frame item) ++ frames items).length := by
        rw [List.length_append, whole]
        omega
      have len : decodeLE ((((before ++ frame item) ++ frames items).drop before.length).take 8) =
          item.length := by
        rw [List.append_assoc, List.drop_left, take_frame_append]
        exact decodeLE_encodeLE 8 item.length (by omega)
      have found : (((before ++ frame item) ++ frames items).drop (before.length + 8)).take
          item.length = item := by
        rw [← List.drop_drop, List.append_assoc, List.drop_left, drop_frame_append, List.take_left]
      have next : (before.length + 8 + item.length) % 2 ^ 32 = (before ++ frame item).length := by
        rw [whole]
        exact Nat.mod_eq_of_lt (by omega)
      rw [parseItems, if_pos ⟨by omega, inside⟩, if_pos ⟨by omega, length⟩]
      simp only [len, found, next]
      rw [ih (before ++ frame item) (by omega) small]
      rfl

theorem parseRawData_frames {items : List Bytes} (small : (frames items).length < 2 ^ 31) :
    parseRawData (frames items) = some items :=
  parseItems_frames [] items (Nat.lt_succ_of_le (length_le_length_frames items)) small

theorem LogFormat.parseSignature_contextData {context : Option SignatureInfo}
    (typed : ∀ signature ∈ context, format.TypedSignature signature) :
    format.parseSignature (format.contextData context) = some (context.getD {}) := by
  cases context with
  | none => exact format.parseSignature_nil
  | some signature => exact format.parseSignature_signature signature (typed signature rfl)

theorem parseData_body {e : Entry} (typed : e.Typed format)
    (small : (e.body format).length < 2 ^ 31) :
    parseData format (e.body format) = some [e.info] := by
  rw [parseData, Entry.body, parseRawData_frames small, Entry.items]
  simp only [Option.bind_some, parsePairs, format.parseRequest_request _ typed.1,
    format.parseSignature_contextData typed.2, Option.map_some]
  rfl

theorem readBlocks_bodies {entries : List Entry} (typed : ∀ e ∈ entries, e.Typed format)
    (small : ∀ e ∈ entries, (e.body format).length < 2 ^ 31) (requestList : List RequestInfo) :
    readBlocks format (entries.map (Entry.body format)) requestList =
      some (requestList ++ entries.map Entry.info) := by
  induction entries generalizing requestList with
  | nil => simp [readBlocks]
  | cons e entries ih =>
      obtain ⟨own, others⟩ := List.forall_mem_cons.mp typed
      have later := ih others (fun other listed => small other (List.mem_cons_of_mem e listed))
        (requestList ++ [e.info])
      rw [List.map_cons, readBlocks, parseData_body own (small e List.mem_cons_self)]
      simp only [later, List.map_cons, List.append_assoc, List.singleton_append]

def callbacks (info : SystemInfoData) (entries : List Entry) (ckpt fileIdx : ℕ) : List Callback :=
  (if fileIdx = 0 then [Callback.systemCallback info] else []) ++
    (entries.filter (fun e => ckpt < e.request.seq)).map (fun e =>
      Callback.callBack (recovered e.info))

theorem length_block_lt {info : SystemInfoData} {entries : List Entry}
    (small : (frames (blocks format info entries)).length < 2 ^ 31) :
    ∀ block ∈ blocks format info entries, block.length < 2 ^ 31 := by
  intro block listed
  have part := length_frame_le_of_mem listed
  rw [length_frame] at part
  omega

theorem readLogsFromFiles_append {info : SystemInfoData} {entries : List Entry} {rest : Bytes}
    (known : format.TypedInfo info) (typed : ∀ e ∈ entries, e.Typed format)
    (small : (frames (blocks format info entries)).length < 2 ^ 31)
    (incomplete : readFrame rest = none) (ckpt fileIdx : ℕ) :
    readLogsFromFiles format (frames (blocks format info entries) ++ rest) ckpt fileIdx =
      some (callbacks info entries ckpt fileIdx) := by
  have sizes := length_block_lt small
  have first : (systemBody format info).length < 2 ^ 31 := sizes _ List.mem_cons_self
  have bodies : ∀ body ∈ entries.map (Entry.body format), body.length < 2 ^ 31 :=
    fun body listed => sizes body (List.mem_cons_of_mem _ listed)
  have found := scan_frames_append (fun body listed => (bodies body listed).trans (by decide))
    incomplete le_rfl
  have read := readBlocks_bodies typed (fun e listed => bodies _ (List.mem_map_of_mem listed)) []
  have items : parseRawData (systemBody format info) = some [format.systemInfo info] :=
    parseRawData_frames first
  rw [blocks, frames_cons, List.append_assoc]
  generalize behind : frames (entries.map (Entry.body format)) ++ rest = string at found ⊢
  have whole : ¬(systemBody format info ++ string).length < (systemBody format info).length := by
    rw [List.length_append]
    omega
  rw [readLogsFromFiles, take_frame_append, drop_frame_append,
    decodeLE_encodeLE 8 _ (by omega), if_neg whole, List.take_left, List.drop_left]
  simp only [items, format.parseSystemInfo_systemInfo info known, found, read, Option.map_some,
    callbacks, List.nil_append, List.filter_map, List.map_map]
  rfl

theorem readLogsFromFiles_written {info : SystemInfoData} {entries : List Entry}
    (known : format.TypedInfo info) (typed : ∀ e ∈ entries, e.Typed format)
    (small : (written format info entries).file.length < 2 ^ 31) {f : LogFile}
    (same : f.requests = entries.map Entry.info) (ckpt fileIdx : ℕ) :
    readLogsFromFiles format (written format info entries).file ckpt fileIdx =
      some ((if fileIdx = 0 then [Callback.systemCallback info] else []) ++
        (Recovery.readLogsFromFiles ckpt f).map Callback.callBack) := by
  rw [written_eq] at small ⊢
  rw [← List.append_nil (frames _), readLogsFromFiles_append known typed small rfl, callbacks,
    Recovery.readLogsFromFiles, same, List.filter_map, List.map_map, List.map_map]
  rfl

theorem readLogsFromFiles_of_cut {info : SystemInfoData} {n : ℕ}
    (small : (systemBody format info).length < 2 ^ 31)
    (cut : n < (frame (systemBody format info)).length) (ckpt fileIdx : ℕ) :
    readLogsFromFiles format ((frame (systemBody format info)).take n) ckpt fileIdx = some [] := by
  by_cases short : n < 8
  · have nothing : ((frame (systemBody format info)).take n).drop 8 = [] :=
      List.drop_eq_nil_of_le ((List.length_take_le n _).trans short.le)
    rw [readLogsFromFiles, nothing, List.take_nil]
    split
    · rfl
    · rfl
  · have number : 8 ≤ n := not_lt.mp short
    rw [readLogsFromFiles, take_take_frame number, decodeLE_encodeLE 8 _ (by omega)]
    exact if_pos (length_drop_take_frame number cut)

end RoundTrip

section TornTail
variable {format : LogFormat} {info : SystemInfoData} {entries : List Entry}

def recordsWithin (format : LogFormat) (info : SystemInfoData) (entries : List Entry) (n : ℕ) :
    List Entry :=
  fitting (fun e => (frame (e.body format)).length)
    (n - (frame (systemBody format info)).length) entries

theorem readLogsFromFiles_take (known : format.TypedInfo info)
    (typed : ∀ e ∈ entries, e.Typed format)
    (small : (frames (blocks format info entries)).length < 2 ^ 31) {n : ℕ}
    (reached : (frame (systemBody format info)).length ≤ n) (ckpt fileIdx : ℕ) :
    readLogsFromFiles format ((frames (blocks format info entries)).take n) ckpt fileIdx =
      some (callbacks info (recordsWithin format info entries n) ckpt fileIdx) := by
  have bodies : ∀ body ∈ entries.map (Entry.body format), body.length < 2 ^ 64 :=
    fun body listed =>
      (length_block_lt small body (List.mem_cons_of_mem _ listed)).trans (by decide)
  obtain ⟨rest, incomplete, cut⟩ :=
    exists_take_frames bodies (n - (frame (systemBody format info)).length)
  have split : (frames (blocks format info entries)).take n =
      frames (blocks format info (recordsWithin format info entries n)) ++ rest := by
    rw [blocks, frames_cons, List.take_append, List.take_of_length_le reached, cut, fitting_map,
      ← List.append_assoc, ← frames_cons]
    rfl
  have smaller : (frames (blocks format info (recordsWithin format info entries n))).length <
      2 ^ 31 := by
    have lengths := congrArg List.length split
    rw [List.length_take, List.length_append] at lengths
    omega
  rw [split]
  exact readLogsFromFiles_append known (fun e within => typed e (fitting_subset _ _ _ within))
    smaller incomplete ckpt fileIdx

/-- Every prefix of a file that was written from its start is read back as the records that are
whole in it. If it does not have the system information, nothing is called. -/
theorem torn_log_read_back (format : LogFormat) (info : SystemInfoData) (entries : List Entry)
    (known : format.TypedInfo info) (typed : ∀ e ∈ entries, e.Typed format)
    (small : (written format info entries).file.length < 2 ^ 31) (torn : Bytes)
    (part : torn <+: (written format info entries).file) (ckpt fileIdx : ℕ) :
    readLogsFromFiles format torn ckpt fileIdx =
      some (if torn.length < (frame (systemBody format info)).length then []
        else
          (if fileIdx = 0 then [Callback.systemCallback info] else []) ++
            ((recordsWithin format info entries torn.length).filter (fun e =>
              ckpt < e.request.seq)).map (fun e => Callback.callBack
                { request := { e.request with isRecovery := true }
                  signature := e.context.getD {} })) := by
  rw [written_eq] at small part
  have shape := List.prefix_iff_eq_take.mp part
  by_cases cut : torn.length < (frame (systemBody format info)).length
  · have first : torn = (frame (systemBody format info)).take torn.length := by
      rw [blocks, frames_cons, List.take_append_of_le_length cut.le] at shape
      exact shape
    rw [if_pos cut, first]
    exact readLogsFromFiles_of_cut (length_block_lt small _ List.mem_cons_self) cut ckpt fileIdx
  · have read := readLogsFromFiles_take known typed small (not_lt.mp cut) ckpt fileIdx
    rw [← shape] at read
    rw [if_neg cut]
    exact read

section Sample

def sampleFormat (requests : List Request) : LogFormat where
  request := TableCode.serialize ({} :: requests)
  parseRequest := TableCode.parse ({} :: requests)
  signature := TableCode.serialize [{}, { nodeId := 1 }]
  parseSignature := TableCode.parse [{}, { nodeId := 1 }]
  systemInfo := TableCode.serialize [{}, { view := 1, primaryId := 1 }]
  parseSystemInfo := TableCode.parse [{}, { view := 1, primaryId := 1 }]
  TypedRequest r := r.seq < 2 ^ 64 ∧ r.currentView < 2 ^ 64
  TypedSignature s := IsInt 64 s.nodeId
  TypedInfo info := IsInt 32 info.view ∧ IsInt 32 info.primaryId
  parseRequest_request r _ := TableCode.parse_serialize _ r
  parseSignature_signature s _ := TableCode.parse_serialize _ s
  parseSignature_nil := rfl
  parseSystemInfo_systemInfo info _ := TableCode.parse_serialize _ info

def sampleFirst : Entry where
  context := some { nodeId := 1 }
  request := { type := .prePrepare, seq := 1 }

def sampleSecond : Entry where
  context := none
  request := { type := .prepare, seq := 2 }

def sampleLog : LogFormat := sampleFormat [sampleFirst.request, sampleSecond.request]

def sampleInfo : SystemInfoData := { view := 1, primaryId := 1 }

theorem sampleInfo_typed : sampleLog.TypedInfo sampleInfo := ⟨by decide, by decide⟩

theorem sampleFirst_typed : sampleFirst.Typed sampleLog := by
  refine ⟨⟨by decide, by decide⟩, ?_⟩
  rintro _ ⟨⟩
  exact (by decide : IsInt 64 1)

theorem sampleSecond_typed : sampleSecond.Typed sampleLog :=
  ⟨⟨by decide, by decide⟩, nofun⟩

theorem sample_torn_log_read :
    (written sampleLog sampleInfo [sampleFirst, sampleSecond]).file.length = 69 ∧
      readLogsFromFiles sampleLog
          ((written sampleLog sampleInfo [sampleFirst, sampleSecond]).file.take 68) 0 0 =
        some [.systemCallback sampleInfo, .callBack
          { request := { type := .prePrepare, seq := 1, isRecovery := true }
            signature := { nodeId := 1 } }] := by
  refine ⟨by decide, ?_⟩
  rw [torn_log_read_back sampleLog sampleInfo [sampleFirst, sampleSecond] sampleInfo_typed
    (by simp [sampleFirst_typed, sampleSecond_typed]) (by decide) _ (List.take_prefix _ _)]
  decide

end Sample

end TornTail
end ResDB.Wal
