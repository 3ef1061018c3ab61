import FreeFlow.Base64
import FreeFlow.KeyValue
import Mathlib.Data.List.TakeWhile

/-!
# The callbacks of a watch

libcurl hands the bytes of a watch stream to a callback, piece by piece and cut
as they arrived. The callback takes the piece for a C string and the string for
one JSON document. A document that does not parse ends the router; of one that
parses the first event is applied and the others are dropped. Keys and values
are decoded to C strings.

So what a callback makes of a stream depends on how the stream was cut and how
its events were batched. A callback follows a stream when every piece is a whole
document and the events it skips are made up for by others on their keys. libcurl
writes no NUL behind a piece; the streams have one there, which favours the
callbacks.
-/

set_option autoImplicit false

namespace FreeFlow.WatchCallbacks

open KeyValue Base64

abbrev Bytes := List (Fin 256)

/-- An entry of `root["result"]["events"]`; the key and the value are base64. -/
structure JsonEvent where
  type : String
  key : List Char
  value : List Char
  deriving DecidableEq

/-- What etcd sends for an operation. The type of a put is the default and is
left out. -/
def jsonEvent : Op Bytes Bytes → JsonEvent
  | .put k v => ⟨"",encode k,encode v⟩
  | .delete k => ⟨"DELETE",encode k,[]⟩

def cString (bytes : Bytes) : Bytes := bytes.takeWhile (· ≠ byte 0)

/-- `(char *)b64_decode(..)` as a string. -/
def b64Decode (text : List Char) : Bytes := cString ((decode text).getD [])

/-- What `process_vip_map` does with an event; `process_nodes` keeps the keys only. -/
def vipEvent (e : JsonEvent) : Op Bytes Bytes :=
  if e.type ≠ "DELETE" then .put (b64Decode e.key) (b64Decode e.value) else .delete (b64Decode e.key)

def nodeEvent (e : JsonEvent) : Op Bytes Unit :=
  if e.type ≠ "DELETE" then .put (b64Decode e.key) () else .delete (b64Decode e.key)

def keyOp : Op Bytes Bytes → Op Bytes Unit
  | .put k _ => .put k ()
  | .delete k => .delete k

/-- A call of the callback: the bytes libcurl passes and the memory behind
them. -/
structure Invocation where
  data : Bytes
  behind : Bytes

/-- `std::string json = (char *)buffer`. -/
def Invocation.json (i : Invocation) : Bytes := cString (i.data++i.behind)

/-- `Json::Reader::parse` with `root["result"]["events"]`: none where the text
does not parse, no events where there are none. -/
abbrev Reader := Bytes → Option (List JsonEvent)

section

variable {V : Type*}

/-- The common part of the two callbacks: the first event is applied. -/
def process (event : JsonEvent → Op Bytes V) (m : Bytes → Option V) :
    List JsonEvent → (Bytes → Option V)
  | [] => m
  | e::_ => apply m (event e)

/-- One call; none where the check on the parser ends the router. -/
def receive (reader : Reader) (event : JsonEvent → Op Bytes V) (m : Bytes → Option V)
    (i : Invocation) : Option (Bytes → Option V) :=
  (reader i.json).map (process event m)

def receiveAll (reader : Reader) (event : JsonEvent → Op Bytes V) :
    (Bytes → Option V) → List Invocation → Option (Bytes → Option V)
  | m, [] => some m
  | m, i::is => (receive reader event m i).bind fun m' => receiveAll reader event m' is

def heard (reader : Reader) (event : JsonEvent → Op Bytes V) (is : List Invocation) :
    List (Op Bytes V) :=
  is.filterMap fun i => ((reader i.json).getD []).head?.map event

theorem receiveAll_eq_some (reader : Reader) (event : JsonEvent → Op Bytes V)
    (m m' : Bytes → Option V) (is : List Invocation) :
    receiveAll reader event m is = some m' ↔
      (∀ i ∈ is, (reader i.json).isSome) ∧ applyAll m (heard reader event is) = m' := by
  induction is generalizing m with
  | nil => simp [receiveAll,heard]
  | cons i is ih =>
    cases hread : reader i.json with
    | none => simp [receiveAll,receive,hread]
    | some events =>
      have hhead : heard reader event (i::is) =
          (events.head?.map event).toList++heard reader event is := by
        simp only [heard,List.filterMap_cons,hread,Option.getD_some]
        cases events <;> rfl
      have hprocess : process event m events = applyAll m (events.head?.map event).toList := by
        cases events <;> rfl
      simp only [receiveAll,receive,hread,Option.map_some,Option.bind_some,ih,hhead,hprocess,
        applyAll_append,List.forall_mem_cons,Option.isSome_some,true_and]

/-- The calls do to every map what the operations do exactly when all texts
parse and the applied events agree with the operations in the last one on every
key. -/
theorem receiveAll_iff [Nonempty V] (reader : Reader) (event : JsonEvent → Op Bytes V)
    (is : List Invocation) (ops : List (Op Bytes V)) :
    (∀ m, receiveAll reader event m is = some (applyAll m ops)) ↔
      (∀ i ∈ is, (reader i.json).isSome) ∧
        ∀ k, lastResult (heard reader event is) k = lastResult ops k := by
  simp only [receiveAll_eq_some,← applyAll_eq_iff]
  constructor
  · exact fun h => ⟨(h fun _ => none).1,fun m => (h m).2⟩
  · exact fun h m => ⟨h.1,h.2 m⟩

end

/-! ## Streams -/

/-- The complete documents with the events they carry. However a text is cut into documents, they
carry the same events. -/
structure Format where
  events : Bytes → Option (List (Op Bytes Bytes))
  nul_free : ∀ text ops, events text = some ops → byte 0 ∉ text
  unambiguous : ∀ xs ys : List Bytes, (∀ x ∈ xs, (events x).isSome) → (∀ y ∈ ys, (events y).isSome) →
    xs.flatten = ys.flatten →
    xs.flatMap (fun x => (events x).getD []) = ys.flatMap fun y => (events y).getD []

/-- The parser is right on complete documents; what it makes of other texts is not known. -/
def Format.Read (f : Format) (reader : Reader) : Prop :=
  ∀ text ops, f.events text = some ops → reader text = some (ops.map jsonEvent)

/-- A watch stream as it is cut, with a NUL behind every piece. -/
structure Stream (f : Format) where
  responses : List Bytes
  invocations : List Invocation
  complete : ∀ r ∈ responses, (f.events r).isSome
  terminated : ∀ i ∈ invocations, i.behind.head? = some (byte 0)
  cut : (invocations.map Invocation.data).flatten = responses.flatten

variable {f : Format}

def Stream.ops (s : Stream f) : List (Op Bytes Bytes) :=
  s.responses.flatMap fun r => (f.events r).getD []

def Stream.pieces (s : Stream f) : List Bytes := s.invocations.map Invocation.data

/-- `vip_map` ends as all events of the stream leave it. -/
def Stream.VipMapFollows (s : Stream f) : Prop :=
  ∀ reader, f.Read reader → ∀ vipMap,
    receiveAll reader vipEvent vipMap s.invocations = some (applyAll vipMap s.ops)

def Stream.HostListFollows (s : Stream f) : Prop :=
  ∀ reader, f.Read reader → ∀ hostList,
    receiveAll reader nodeEvent hostList s.invocations = some (applyAll hostList (s.ops.map keyOp))

/-- An event and whether it is the first one of its piece. -/
structure Entry where
  op : Op Bytes Bytes
  first : Bool
  deriving DecidableEq

def entries : List (Op Bytes Bytes) → List Entry
  | [] => []
  | op::ops => ⟨op,true⟩::ops.map fun o => ⟨o,false⟩

/-- The events of a stream whose pieces are documents. -/
def Stream.entries (s : Stream f) : List Entry :=
  s.pieces.flatMap fun t => WatchCallbacks.entries ((f.events t).getD [])

/-- A put as far as its value goes in a C string. -/
def cutValue : Op Bytes Bytes → Op Bytes Bytes
  | .put k v => .put k (cString v)
  | .delete k => .delete k

/-- Every event is the first of its piece and done as it is meant, or it is followed by an event on
its key, or the first of a piece that came last on its key has left the same already. -/
def MadeUp {V : Type*} (mean done : Op Bytes Bytes → Op Bytes V) (es : List Entry) : Prop :=
  ∀ before x after, es = before++x::after →
    (x.first = true ∧ done x.op = mean x.op) ∨ (∃ y ∈ after, y.op.key = x.op.key) ∨
    (x.first = false ∧ ∃ earlier z between, before = earlier++z::between ∧ z.first = true ∧
      z.op.key = x.op.key ∧ (done z.op).result = (mean x.op).result ∧
      ∀ y ∈ between, y.first = true → y.op.key ≠ x.op.key)

/-! ## What a callback makes of a stream -/

theorem cString_eq_self {bytes : Bytes} (h : byte 0 ∉ bytes) : cString bytes = bytes :=
  List.takeWhile_eq_self_iff.mpr fun _ hb => decide_eq_true fun hz => h (hz ▸ hb)

theorem cString_terminated {bytes : Bytes} (h : byte 0 ∉ bytes) (rest : Bytes) :
    cString (bytes++byte 0::rest) = bytes := by
  have hpos : ∀ b ∈ bytes, decide (b ≠ byte 0) = true := fun b hb => decide_eq_true fun hz => h (hz ▸ hb)
  rw [cString,List.takeWhile_append_of_pos hpos,List.takeWhile_cons_of_neg (by simp),List.append_nil]

theorem not_mem_cString (bytes : Bytes) : byte 0 ∉ cString bytes := fun h =>
  absurd (List.mem_takeWhile_imp h) (by simp)

theorem b64Decode_encode (bytes : Bytes) : b64Decode (encode bytes) = cString bytes := by
  rw [b64Decode,decode_encode,Option.getD_some]

/-- A callback by what it does with an event as long as its key goes in a C string, and by what the
event means for it. -/
structure Callback (V : Type*) where
  event : JsonEvent → Op Bytes V
  mean : Op Bytes Bytes → Op Bytes V
  done : Op Bytes Bytes → Op Bytes V
  event_key : ∀ op, (event (jsonEvent op)).key = cString op.key
  event_eq : ∀ op, byte 0 ∉ op.key → event (jsonEvent op) = done op
  mean_key : ∀ op, (mean op).key = op.key
  done_key : ∀ op, (done op).key = op.key

def processVipMap : Callback Bytes where
  event := vipEvent
  mean := id
  done := cutValue
  event_key op := by cases op <;> simp [vipEvent,jsonEvent,b64Decode_encode,Op.key]
  event_eq op h := by
    cases op with
    | put k v => simp [vipEvent,jsonEvent,b64Decode_encode,cutValue,cString_eq_self (show byte 0 ∉ k from h)]
    | delete k => simp [vipEvent,jsonEvent,b64Decode_encode,cutValue,cString_eq_self (show byte 0 ∉ k from h)]
  mean_key _ := rfl
  done_key op := by cases op <;> rfl

def processNodes : Callback Unit where
  event := nodeEvent
  mean := keyOp
  done := keyOp
  event_key op := by cases op <;> simp [nodeEvent,jsonEvent,b64Decode_encode,Op.key]
  event_eq op h := by
    cases op with
    | put k v => simp [nodeEvent,jsonEvent,b64Decode_encode,keyOp,cString_eq_self (show byte 0 ∉ k from h)]
    | delete k => simp [nodeEvent,jsonEvent,b64Decode_encode,keyOp,cString_eq_self (show byte 0 ∉ k from h)]
  mean_key op := by cases op <;> rfl
  done_key op := by cases op <;> rfl

/-- Documents hold no NUL, so that a piece of the stream is read as it is. -/
theorem Stream.json_eq (s : Stream f) (i : Invocation) (hi : i ∈ s.invocations) : i.json = i.data := by
  have hfree : byte 0 ∉ i.data := by
    intro hz
    have hmem : byte 0 ∈ (s.invocations.map Invocation.data).flatten :=
      List.mem_flatten.mpr ⟨i.data,List.mem_map_of_mem hi,hz⟩
    rw [s.cut] at hmem
    obtain ⟨r,hr,hz⟩ := List.mem_flatten.mp hmem
    obtain ⟨ops,hops⟩ := Option.isSome_iff_exists.mp (s.complete r hr)
    exact f.nul_free r ops hops hz
  obtain ⟨rest,hrest⟩ := List.head?_eq_some_iff.mp (s.terminated i hi)
  rw [Invocation.json,hrest,cString_terminated hfree]

/-- A parser that takes the documents and nothing else. -/
def Format.strict (f : Format) : Reader := fun text => (f.events text).map fun ops => ops.map jsonEvent

theorem Format.read_strict (f : Format) : f.Read f.strict := fun text ops hops => by
  rw [Format.strict,hops,Option.map_some]

theorem entries_op (ops : List (Op Bytes Bytes)) : (entries ops).map Entry.op = ops := by
  cases ops with
  | nil => rfl
  | cons op ops => simp [entries,Function.comp_def]

/-- Where the pieces are documents, they carry the events of the responses. -/
theorem Stream.entries_op (s : Stream f) (hdocs : ∀ t ∈ s.pieces, (f.events t).isSome) :
    s.entries.map Entry.op = s.ops := by
  rw [Stream.entries,List.map_flatMap]
  simp only [WatchCallbacks.entries_op]
  exact f.unambiguous s.pieces s.responses hdocs s.complete s.cut

variable {V : Type*}

def Callback.act (c : Callback V) (x : Entry) : Option (Op Bytes V) :=
  if x.first then some (c.event (jsonEvent x.op)) else none

theorem entries_act (c : Callback V) (ops : List (Op Bytes Bytes)) :
    (entries ops).filterMap c.act = ((ops.map jsonEvent).head?.map c.event).toList := by
  cases ops with
  | nil => rfl
  | cons op ops => simp [entries,Callback.act,List.filterMap_map,Function.comp_def]

/-- The first events of the pieces are what is applied. -/
theorem Stream.heard_eq (s : Stream f) (c : Callback V) {reader : Reader} (hread : f.Read reader)
    (hdocs : ∀ t ∈ s.pieces, (f.events t).isSome) :
    heard reader c.event s.invocations = s.entries.filterMap c.act := by
  rw [heard,List.filterMap_eq_flatMap_toList,Stream.entries,List.filterMap_flatMap,Stream.pieces,List.flatMap_map]
  refine List.flatMap_congr fun i hi => ?_
  obtain ⟨ops,hops⟩ := Option.isSome_iff_exists.mp (hdocs i.data (List.mem_map_of_mem hi))
  rw [s.json_eq i hi,hread i.data ops hops,hops,Option.getD_some,Option.getD_some,entries_act]

/-- All that a callback does is on keys without a NUL. -/
theorem Stream.keys_nul_free (s : Stream f) (c : Callback V)
    (h : ∀ k, lastResult (s.entries.filterMap c.act) k = lastResult (s.ops.map c.mean) k) :
    ∀ op ∈ s.ops, byte 0 ∉ op.key := by
  intro op hop hz
  have hnone : lastResult (s.entries.filterMap c.act) op.key = none := by
    refine (lastResult_eq_none _ _).mpr fun o ho hkey => ?_
    obtain ⟨x,-,hx⟩ := List.mem_filterMap.mp ho
    obtain ⟨-,hx⟩ := Option.ite_none_right_eq_some.mp hx
    rw [← hkey,← Option.some.inj hx,c.event_key] at hz
    exact not_mem_cString _ hz
  rw [h] at hnone
  exact (lastResult_eq_none _ _).mp hnone (c.mean op) (List.mem_map_of_mem hop) (c.mean_key op)

/-- With such a key the first event of a piece is done on its own key. -/
theorem Callback.act_eq_some (c : Callback V) (x : Entry) (hkey : byte 0 ∉ x.op.key) (o : Op Bytes V) :
    c.act x = some o ↔ x.first = true ∧ c.done x.op = o := by
  rw [Callback.act,c.event_eq x.op hkey,Option.ite_none_right_eq_some,Option.some.injEq]

/-- What the first events of the pieces have left under a key. -/
theorem Callback.left_eq_some (c : Callback V) (es : List Entry) (hkeys : ∀ x ∈ es, byte 0 ∉ x.op.key)
    (k : Bytes) (r : Option V) : lastResult (es.filterMap c.act) k = some r ↔
      ∃ earlier z between, es = earlier++z::between ∧ z.first = true ∧ z.op.key = k ∧
        (c.done z.op).result = r ∧ ∀ y ∈ between, y.first = true → y.op.key ≠ k := by
  rw [lastResult_filterMap_eq_some]
  constructor
  · rintro ⟨earlier,z,between,o,rfl,hz,hkey,hresult,hbetween⟩
    have hz' := hkeys z (List.mem_append_right _ List.mem_cons_self)
    obtain ⟨hfirst,rfl⟩ := (c.act_eq_some z hz' o).mp hz
    refine ⟨earlier,z,between,rfl,hfirst,(c.done_key z.op).symm.trans hkey,hresult,fun y hy hfirst => ?_⟩
    have hy' := hkeys y (List.mem_append_right _ (List.mem_cons_of_mem _ hy))
    exact c.done_key y.op ▸ hbetween y hy _ ((c.act_eq_some y hy' _).mpr ⟨hfirst,rfl⟩)
  · rintro ⟨earlier,z,between,rfl,hfirst,hkey,hresult,hbetween⟩
    have hz' := hkeys z (List.mem_append_right _ List.mem_cons_self)
    refine ⟨earlier,z,between,c.done z.op,rfl,(c.act_eq_some z hz' _).mpr ⟨hfirst,rfl⟩,
      (c.done_key z.op).trans hkey,hresult,fun y hy o ho => ?_⟩
    have hy' := hkeys y (List.mem_append_right _ (List.mem_cons_of_mem _ hy))
    obtain ⟨hfirst,rfl⟩ := (c.act_eq_some y hy' o).mp ho
    exact c.done_key y.op ▸ hbetween y hy hfirst

theorem madeUp_iff (c : Callback V) (es : List Entry) (hkeys : ∀ x ∈ es, byte 0 ∉ x.op.key) :
    (∀ k, lastResult (es.filterMap c.act) k = lastResult (es.map fun x => c.mean x.op) k) ↔
      MadeUp c.mean c.done es := by
  have hkey : ∀ x ∈ es, ∀ o, c.act x = some o → o.key = (c.mean x.op).key := by
    intro x hx o ho
    obtain ⟨-,rfl⟩ := (c.act_eq_some x (hkeys x hx) o).mp ho
    rw [c.done_key,c.mean_key]
  rw [lastResult_filterMap_iff c.act (fun x => c.mean x.op) es hkey,MadeUp]
  refine forall₃_congr fun before x after => forall_congr' fun hes => ?_
  have hx : byte 0 ∉ x.op.key := hkeys x (hes ▸ List.mem_append_right _ List.mem_cons_self)
  have hbefore : ∀ y ∈ before, byte 0 ∉ y.op.key := fun y hy => hkeys y (hes ▸ List.mem_append_left _ hy)
  simp only [c.mean_key]
  have hlater : (∀ y ∈ after, y.op.key ≠ x.op.key) ↔ ¬∃ y ∈ after, y.op.key = x.op.key := by simp
  rw [hlater,lastResult_filterMap_concat,← or_iff_not_imp_left]
  cases hfirst : x.first with
  | true =>
    have hact : c.act x = some (c.done x.op) := (c.act_eq_some x hx _).mpr ⟨hfirst,rfl⟩
    have hsame : (c.done x.op).result = (c.mean x.op).result ↔ c.done x.op = c.mean x.op :=
      ⟨Op.ext_of ((c.done_key x.op).trans (c.mean_key x.op).symm),fun heq => by rw [heq]⟩
    simp [hact,c.done_key,hsame,or_comm]
  | false =>
    have hact : c.act x = none := by simp [Callback.act,hfirst]
    simp [hact,c.left_eq_some before hbefore]

/-- A parser stops at no piece of a stream exactly when it takes the text of every piece. -/
theorem Stream.parses_iff (s : Stream f) (reader : Reader) :
    (∀ i ∈ s.invocations, (reader i.json).isSome) ↔ ∀ t ∈ s.pieces, (reader t).isSome := by
  rw [Stream.pieces,List.forall_mem_map]
  exact forall₂_congr fun i hi => by rw [s.json_eq i hi]

theorem Stream.lastResult_iff (s : Stream f) (c : Callback V)
    (hdocs : ∀ t ∈ s.pieces, (f.events t).isSome) :
    (∀ k, lastResult (s.entries.filterMap c.act) k = lastResult (s.ops.map c.mean) k) ↔
      (∀ op ∈ s.ops, byte 0 ∉ op.key) ∧ MadeUp c.mean c.done s.entries := by
  have hops : s.ops.map c.mean = s.entries.map fun x => c.mean x.op := by
    rw [← s.entries_op hdocs,List.map_map]
    rfl
  have hentries : (∀ op ∈ s.ops, byte 0 ∉ op.key) → ∀ x ∈ s.entries, byte 0 ∉ x.op.key :=
    fun hkeys x hx => hkeys x.op (s.entries_op hdocs ▸ List.mem_map_of_mem hx)
  constructor
  · intro h
    have hkeys := s.keys_nul_free c h
    exact ⟨hkeys,(madeUp_iff c s.entries (hentries hkeys)).mp (hops ▸ h)⟩
  · rintro ⟨hkeys,hmade⟩
    rw [hops]
    exact (madeUp_iff c s.entries (hentries hkeys)).mpr hmade

/-- A callback follows a stream for every parser exactly when every piece is a document, no key has a
NUL, and every event is made up for. -/
theorem Stream.follows (s : Stream f) (c : Callback V) [Nonempty V] :
    (∀ reader, f.Read reader → ∀ m,
      receiveAll reader c.event m s.invocations = some (applyAll m (s.ops.map c.mean))) ↔
    (∀ t ∈ s.pieces, (f.events t).isSome) ∧ (∀ op ∈ s.ops, byte 0 ∉ op.key) ∧
      MadeUp c.mean c.done s.entries := by
  simp only [receiveAll_iff,s.parses_iff]
  constructor
  · intro h
    -- the strict parser shows that the pieces are documents
    obtain ⟨hall,hresult⟩ := h f.strict f.read_strict
    have hdocs : ∀ t ∈ s.pieces, (f.events t).isSome := fun t ht => by
      simpa [Format.strict] using hall t ht
    rw [s.heard_eq c f.read_strict hdocs] at hresult
    exact ⟨hdocs,(s.lastResult_iff c hdocs).mp hresult⟩
  · rintro ⟨hdocs,hmade⟩ reader hread
    rw [s.heard_eq c hread hdocs]
    refine ⟨fun t ht => ?_,(s.lastResult_iff c hdocs).mpr hmade⟩
    obtain ⟨ops,hops⟩ := Option.isSome_iff_exists.mp (hdocs t ht)
    rw [hread t ops hops]
    rfl

theorem Stream.vipMapFollows_iff (s : Stream f) : s.VipMapFollows ↔
    (∀ t ∈ s.pieces, (f.events t).isSome) ∧ (∀ op ∈ s.ops, byte 0 ∉ op.key) ∧
      MadeUp id cutValue s.entries := by
  have h := s.follows processVipMap
  rwa [show s.ops.map processVipMap.mean = s.ops from List.map_id _] at h

/-- Where every piece is a document with at most one event, the callbacks apply all events, up to
NUL bytes in keys and values. -/
theorem Stream.follows_of_single (s : Stream f)
    (hsingle : ∀ t ∈ s.pieces, ∃ ops, f.events t = some ops ∧ ops.length ≤ 1)
    (hnul : ∀ op ∈ s.ops, byte 0 ∉ op.key ∧ cutValue op = op) : s.VipMapFollows ∧ s.HostListFollows := by
  have hdocs : ∀ t ∈ s.pieces, (f.events t).isSome := by
    intro t ht
    obtain ⟨ops,hops,-⟩ := hsingle t ht
    rw [hops]
    rfl
  have hfirst : ∀ x ∈ s.entries, x.first = true := by
    intro x hx
    obtain ⟨t,ht,hx⟩ := List.mem_flatMap.mp hx
    obtain ⟨ops,hops,hlen⟩ := hsingle t ht
    rw [hops,Option.getD_some] at hx
    match ops, hlen with
    | [], _ => simp [WatchCallbacks.entries] at hx
    | [op], _ =>
      obtain rfl : x = ⟨op,true⟩ := by simpa [WatchCallbacks.entries] using hx
      rfl
  have hmade : ∀ {W : Type} (mean done : Op Bytes Bytes → Op Bytes W),
      (∀ op ∈ s.ops, done op = mean op) → MadeUp mean done s.entries := by
    intro W mean done hdone before x after hsplit
    have hx : x ∈ s.entries := hsplit ▸ List.mem_append_right _ List.mem_cons_self
    exact .inl ⟨hfirst x hx,hdone x.op (s.entries_op hdocs ▸ List.mem_map_of_mem hx)⟩
  have hkeys : ∀ op ∈ s.ops, byte 0 ∉ op.key := fun op hop => (hnul op hop).1
  exact ⟨s.vipMapFollows_iff.mpr ⟨hdocs,hkeys,hmade id cutValue fun op hop => (hnul op hop).2⟩,
    (s.follows processNodes).mpr ⟨hdocs,hkeys,hmade keyOp keyOp fun _ _ => rfl⟩⟩

def single : Bytes :=
  (("\x7b\"result\":\x7b\"events\":[" ++
    "\x7b\"kv\":\x7b\"key\":\"Yg==\",\"value\":\"Mg==\"\x7d\x7d]\x7d\x7d").toList.map fun c => byte c.toNat)

end FreeFlow.WatchCallbacks
