import Clir.Corpus.Json
import Mathlib.Logic.Relation

set_option autoImplicit false

/-! # The corpus store

`insert_json_into_mongodb` scans the collection for a block that `compare_instrs` does not tell from
the new one, and inserts the new one if there is none. The database is what the calls talk to: each
call gets a `Reply`, in which any step may fail. It is assumed of a reply that the documents that
`find` yields are those of the collection, in any order, unless reading fails, and that
`insert_one` stores the document, with an `_id`, or fails.

How texts and documents are read is left to `serde_json` and `bson`, and is a parameter (`Serde`).
The one assumption about it is that a block comes back from the collection as it was read from the
text (`Serde.RoundTrip`). It is made for blocks without the keys of extended JSON only, since `bson`
reads an object with such a key as a value of another type. A block with such a key does not equal
what is read back of it, and is stored again.

A call either finds the block, adds it, or fails and changes nothing (`Ended`). Every statement
about runs of calls follows from this.
-/

namespace Clir

/-- What a call leaves to `serde_json`, to `bson` and to the driver of the database. -/
structure Serde (Text Document : Type) where
  /-- `serde_json::from_str::<BlockJson>` -/
  fromJsonString : Text → Except String BlockJson
  /-- `serde_json::from_str::<Document>` -/
  documentFromStr : Text → Except String Document
  /-- `from_bson(Bson::Document(..))` -/
  fromBson : Document → Except String BlockJson
  /-- what `insert_one` stores: a document without an `_id` gets the given one -/
  withId : ℕ → Document → Document

/-- **A block is read back as it was stored**, if it has no key of extended JSON. -/
structure Serde.RoundTrip {Text Document : Type} (S : Serde Text Document) : Prop where
  fromBson_withId : ∀ {text : Text} {b : BlockJson} {d : Document} (id : ℕ),
    S.fromJsonString text = .ok b → b.Plain → S.documentFromStr text = .ok d →
      S.fromBson (S.withId id d) = .ok b

section Calls

variable {Text Document : Type}

/-- What the database answers in the course of a call. -/
structure Reply (collection : List Document) where
  /-- the error of `get_collection`, if there is one -/
  connectError : Option String := none
  /-- the error of `find` -/
  findError : Option String := none
  /-- what the cursor yields -/
  cursor : List (Except String Document)
  /-- what `insert_one` answers: the `_id` of the document that it has stored -/
  inserted : Except String ℕ
  sound : ∀ d, .ok d ∈ cursor → d ∈ collection
  complete : (∀ r ∈ cursor, ∃ d, r = .ok d) → ∀ d ∈ collection, .ok d ∈ cursor

/-- Commands on the collection. A command that fails keeps what it has done. -/
abbrev Db (Document : Type) := EStateM Failure (List Document)

def failIf (error : Option String) : Db Document Unit :=
  match error with
  | some e => throw (.err e)
  | none => return ()

def liftExcept {α : Type} (x : Except Failure α) : Db Document α :=
  match x with
  | .ok a => return a
  | .error e => throw e

variable (S : Serde Text Document)

/-- `documents_are_equal` -/
def documentsAreEqual (doc : Document) (newBlockJson : Text) : Except Failure Bool := do
  let oldBlock ← (S.fromBson doc).mapError .err
  let newBlock ← (S.fromJsonString newBlockJson).mapError .err
  oldBlock.compareInstrs newBlock

/-- The loop over the cursor: whether the block has been found. -/
def scanCursor (newBlockJson : Text) : List (Except String Document) → Db Document Bool
  | [] => return false
  | .ok doc :: rest => do
      if ← liftExcept (documentsAreEqual S doc newBlockJson) then
        return true
      else
        scanCursor newBlockJson rest
  | .error e :: _ => throw (.err e)

/-- `insert_one` -/
def insertOne (inserted : Except String ℕ) (newDocument : Document) : Db Document Unit :=
  match inserted with
  | .ok id => modify (· ++ [S.withId id newDocument])
  | .error e => throw (.err e)

/-- `insert_json_into_mongodb` -/
def insertJsonIntoMongodb {collection : List Document} (reply : Reply collection)
    (newBlockJson : Text) : Db Document Unit := do
  failIf reply.connectError
  let newDocument ← liftExcept ((S.documentFromStr newBlockJson).mapError .err)
  failIf reply.findError
  if ← scanCursor S newBlockJson reply.cursor then
    return ()
  else
    insertOne S reply.inserted newDocument

/-- The text is that of a block whose instructions are objects. -/
structure Serde.Denotes (text : Text) (b : BlockJson) : Prop where
  read : S.fromJsonString text = .ok b
  objects : b.ObjectInstrs

/-- One call after another, with blocks whose instructions are objects, and which satisfy `P`. -/
inductive Calls (P : BlockJson → Prop) : List Document → List Document → Prop
  | ok {collection after : List Document} (reply : Reply collection) {text : Text} {b : BlockJson}
      (htext : S.Denotes text b) (hb : P b)
      (h : insertJsonIntoMongodb S reply text collection = .ok () after) :
      Calls P collection after
  | error {collection after : List Document} (reply : Reply collection) {text : Text}
      {b : BlockJson} (htext : S.Denotes text b) (hb : P b) {e : Failure}
      (h : insertJsonIntoMongodb S reply text collection = .error e after) :
      Calls P collection after

end Calls

/-! ## What a call does -/

section Documents

variable {Text Document : Type} (S : Serde Text Document) (d e : Document) (b : BlockJson)

namespace Serde

/-- The document is read back as a block whose instructions are objects. -/
structure Reads : Prop where
  read : S.fromBson d = .ok b
  objects : b.ObjectInstrs

/-- The document equals the block under `compare_instrs`. -/
def Matches : Prop := ∃ old, S.fromBson d = .ok old ∧ old.compareInstrs b = .ok true

/-- Two documents that are equal under `compare_instrs`. -/
def SameInstrs : Prop := ∃ b, S.fromBson e = .ok b ∧ S.Matches d b

/-- Every document is read back as a block. -/
def Readable (collection : List Document) : Prop := ∀ d ∈ collection, ∃ b, S.Reads d b

end Serde

/-- The three ways in which a call ends. -/
inductive Ended (collection : List Document) (b : BlockJson) :
    EStateM.Result Failure (List Document) Unit → Prop
  | found {d : Document} (hd : d ∈ collection) (h : S.Matches d b) :
      Ended collection b (.ok () collection)
  | added {d : Document} (hd : S.Reads d b) (h : ∀ old ∈ collection, ¬ S.Matches old b) :
      Ended collection b (.ok () (collection ++ [d]))
  | failed (e : String) : Ended collection b (.error (.err e) collection)

end Documents

section Step

variable {Text Document : Type} {S : Serde Text Document} {collection : List Document}
  {d e : Document} {a b : BlockJson} {text : Text}

theorem Serde.Reads.matches_iff (hd : S.Reads d a) (hb : b.ObjectInstrs) :
    S.Matches d b ↔ a.opcodes = b.opcodes := by
  unfold Serde.Matches
  rw [hd.read]
  simp [BlockJson.compareInstrs_eq hd.objects hb]

theorem Serde.Reads.sameInstrs_iff (hd : S.Reads d a) (he : S.Reads e b) :
    S.SameInstrs d e ↔ a.opcodes = b.opcodes := by
  unfold Serde.SameInstrs
  rw [he.read]
  simp [hd.matches_iff he.objects]

theorem documentsAreEqual_eq (hd : S.Reads d a) (hb : S.Denotes text b)
    [Decidable (S.Matches d b)] :
    documentsAreEqual S d text = .ok (decide (S.Matches d b)) := by
  unfold documentsAreEqual
  rw [hd.read, hb.read]
  change a.compareInstrs b = _
  rw [BlockJson.compareInstrs_eq hd.objects hb.objects]
  simp [hd.matches_iff hb.objects]

/-- The scan finds a document that matches, or all documents and that none does, or it fails. It
does not change the collection. -/
theorem scanCursor_spec (hc : S.Readable collection) (hb : S.Denotes text b)
    {cursor : List (Except String Document)} (hsound : ∀ d, .ok d ∈ cursor → d ∈ collection) :
    (∃ d ∈ collection, S.Matches d b ∧
      scanCursor S text cursor collection = .ok true collection) ∨
    ((∀ r ∈ cursor, ∃ d, r = .ok d ∧ ¬ S.Matches d b) ∧
      scanCursor S text cursor collection = .ok false collection) ∨
    ∃ e, scanCursor S text cursor collection = .error (.err e) collection := by
  -- on the answers of the cursor: the scan stops at the first match or error
  induction cursor with
  | nil => exact .inr (.inl ⟨by simp, rfl⟩)
  | cons r rest ih =>
      cases r with
      | error e => exact .inr (.inr ⟨e, rfl⟩)
      | ok d =>
          have hd : d ∈ collection := hsound d List.mem_cons_self
          obtain ⟨a, ha⟩ := hc d hd
          classical
          have heq := documentsAreEqual_eq ha hb
          by_cases hmatch : S.Matches d b
          · refine .inl ⟨d, hd, hmatch, ?_⟩
            rw [decide_eq_true hmatch] at heq
            unfold scanCursor
            rw [heq]
            rfl
          · have hnext : scanCursor S text (.ok d :: rest) collection =
                scanCursor S text rest collection := by
              rw [decide_eq_false hmatch] at heq
              rw [scanCursor, heq]
              rfl
            rw [hnext]
            rcases ih fun d hd => hsound d (List.mem_cons_of_mem _ hd) with h | ⟨hrest, h⟩ | h
            · exact .inl h
            · exact .inr (.inl ⟨List.forall_mem_cons.mpr ⟨⟨d, rfl, hmatch⟩, hrest⟩, h⟩)
            · exact .inr (.inr h)

/-- **What a call does.** -/
theorem insertJsonIntoMongodb_spec (hS : S.RoundTrip) (hc : S.Readable collection)
    (hb : S.Denotes text b) (hplain : b.Plain) (reply : Reply collection) :
    Ended S collection b (insertJsonIntoMongodb S reply text collection) := by
  obtain ⟨connectError, findError, cursor, inserted, hsound, hcomplete⟩ := reply
  unfold insertJsonIntoMongodb
  cases connectError with
  | some e => exact .failed e
  | none =>
  cases hdoc : S.documentFromStr text with
  | error e => exact .failed e
  | ok doc =>
  cases findError with
  | some e => exact .failed e
  | none =>
  change Ended S collection b (EStateM.bind (scanCursor S text cursor) (fun found =>
    if found then return () else insertOne S inserted doc) collection)
  unfold EStateM.bind
  rcases scanCursor_spec hc hb hsound with ⟨d, hd, hmatch, h⟩ | ⟨hnone, h⟩ | ⟨e, h⟩
  · rw [h]
    exact .found hd hmatch
  · rw [h]
    cases inserted with
    | error e => exact .failed e
    | ok id =>
        refine .added ⟨hS.fromBson_withId id hb.read hplain hdoc, hb.objects⟩
          fun old hold hmatch => ?_
        -- the cursor has read the document, without a match
        have hread := hcomplete (fun r hr => (hnone r hr).imp fun _ => And.left) old hold
        obtain ⟨d, hd, hne⟩ := hnone _ hread
        obtain rfl := Except.ok.inj hd
        exact hne hmatch
  · rw [h]
    exact .failed e

end Step

/-! ## Runs of calls -/

/-- What holds of the collection between calls: every document is read back as a block, and no two
of them are equal. -/
structure Deduplicated {Text Document : Type} (S : Serde Text Document)
    (collection : List Document) : Prop where
  readable : S.Readable collection
  distinct : collection.Pairwise fun d e => ¬ S.SameInstrs d e ∧ ¬ S.SameInstrs e d

section Runs

variable {Text Document : Type} {S : Serde Text Document} {collection after : List Document}
  {d : Document} {b : BlockJson}

theorem deduplicated_nil : Deduplicated S [] := ⟨by simp [Serde.Readable], .nil⟩

/-- A document that matches none of the others may be added. -/
theorem Deduplicated.append (h : Deduplicated S collection) (hd : S.Reads d b)
    (hne : ∀ old ∈ collection, ¬ S.Matches old b) : Deduplicated S (collection ++ [d]) where
  readable := by
    intro d' hd'
    rcases List.mem_append.mp hd' with hmem | hmem
    · exact h.readable d' hmem
    · exact ⟨b, List.mem_singleton.mp hmem ▸ hd⟩
  distinct := by
    refine List.pairwise_append.mpr ⟨h.distinct, List.pairwise_singleton _ _, ?_⟩
    intro old hold d' hd'
    obtain rfl := List.mem_singleton.mp hd'
    obtain ⟨a, ha⟩ := h.readable old hold
    have hopcodes : a.opcodes ≠ b.opcodes := fun heq =>
      hne old hold ((ha.matches_iff hd.objects).mpr heq)
    exact ⟨fun hsame => hopcodes ((ha.sameInstrs_iff hd).mp hsame),
      fun hsame => hopcodes ((hd.sameInstrs_iff ha).mp hsame).symm⟩

/-- A call only adds documents, and keeps them distinct. -/
theorem Calls.spec (hS : S.RoundTrip) (h : Calls S BlockJson.Plain collection after)
    (hc : Deduplicated S collection) :
    Deduplicated S after ∧ ∃ added, after = collection ++ added := by
  cases h with
  | ok reply htext hb h =>
      have hend := insertJsonIntoMongodb_spec hS hc.readable htext hb reply
      rw [h] at hend
      cases hend with
      | found hd hmatch => exact ⟨hc, [], (List.append_nil _).symm⟩
      | added hd hne => exact ⟨hc.append hd hne, _, rfl⟩
  | error reply htext hb h =>
      have hend := insertJsonIntoMongodb_spec hS hc.readable htext hb reply
      rw [h] at hend
      cases hend
      exact ⟨hc, [], (List.append_nil _).symm⟩

/-- The same for any number of calls. -/
theorem runs_spec (hS : S.RoundTrip)
    (h : Relation.ReflTransGen (Calls S BlockJson.Plain) collection after)
    (hc : Deduplicated S collection) :
    Deduplicated S after ∧ ∃ added, after = collection ++ added := by
  induction h with
  | refl => exact ⟨hc, [], (List.append_nil _).symm⟩
  | tail _ hcall ih =>
      obtain ⟨hmid, added, rfl⟩ := ih
      obtain ⟨hafter, added', rfl⟩ := hcall.spec hS hmid
      exact ⟨hafter, added ++ added', List.append_assoc _ _ _⟩

/-- **The corpus has no duplicates.** In a collection that calls with blocks without the keys of
extended JSON have made from an empty one, no two documents are equal under `compare_instrs`, and
further calls only add documents. Of such a call: if it returns, the collection has a document that
equals the block; if it fails, it returns an error, and the collection is as it was. -/
theorem insertJsonIntoMongodb_deduplicates (hS : S.RoundTrip)
    (h : Relation.ReflTransGen (Calls S BlockJson.Plain) [] collection) :
    collection.Pairwise (fun d e => ¬ S.SameInstrs d e ∧ ¬ S.SameInstrs e d) ∧
    (∀ later, Relation.ReflTransGen (Calls S BlockJson.Plain) collection later →
      ∃ added, later = collection ++ added) ∧
    ∀ (reply : Reply collection) (text : Text) (b : BlockJson), S.Denotes text b → b.Plain →
      (∀ after, insertJsonIntoMongodb S reply text collection = .ok () after →
        ∃ d ∈ after, S.Matches d b) ∧
      ∀ e after, insertJsonIntoMongodb S reply text collection = .error e after →
        after = collection ∧ ∃ message, e = .err message := by
  have hc : Deduplicated S collection := (runs_spec hS h deduplicated_nil).1
  refine ⟨hc.distinct, fun later hlater => (runs_spec hS hlater hc).2,
    fun reply text b htext hb => ?_⟩
  have hend := insertJsonIntoMongodb_spec hS hc.readable htext hb reply
  constructor
  · intro after hok
    rw [hok] at hend
    cases hend with
    | found hd hmatch => exact ⟨_, hd, hmatch⟩
    | @added d hd hne =>
        refine ⟨d, List.mem_append_right _ (List.mem_singleton_self _), ?_⟩
        exact (hd.matches_iff htext.objects).mpr rfl
  · intro e after herror
    rw [herror] at hend
    cases hend with
    | failed message => exact ⟨rfl, message, rfl⟩

end Runs

/-! ## Extended JSON -/

mutual

/-- A value as `bson` reads it, of the keys of extended JSON with `$numberInt` alone: an object with
this key is a number. -/
def JsonValue.ofExtended : JsonValue → JsonValue
  | .array elements => .array (JsonValue.ofExtendedList elements)
  | .object fields =>
      match fields.lookup "$numberInt" with
      | some (.string digits) =>
          .number (.int (digits.toList.foldl (fun n c => 10 * n + (c.toNat - 48)) 0))
      | _ => .object (JsonValue.ofExtendedFields fields)
  | v => v

def JsonValue.ofExtendedList : List JsonValue → List JsonValue
  | [] => []
  | v :: rest => v.ofExtended :: JsonValue.ofExtendedList rest

def JsonValue.ofExtendedFields : List (String × JsonValue) → List (String × JsonValue)
  | [] => []
  | (key, v) :: rest => (key, v.ofExtended) :: JsonValue.ofExtendedFields rest

end

/-- A field of the type `Vec<JsonValue>`. -/
def sequenceField (fields : List (String × JsonValue)) (key : String) :
    Except String (List JsonValue) :=
  match fields.lookup key with
  | some (.array elements) => return elements
  | some _ => throw "invalid type, expected a sequence"
  | none => throw ("missing field " ++ key)

/-- The derived `Deserialize` on the fields of an object. Others than its own are ignored. -/
def blockOfFields (fields : List (String × JsonValue)) : Except String BlockJson := do
  return ⟨← sequenceField fields "instrs", ← sequenceField fields "block_type",
    ← sequenceField fields "context"⟩

/-- The block of a text: an object, or a sequence of the fields. -/
def extendedBlock : JsonValue → Except String BlockJson
  | .object fields => blockOfFields fields
  | .array [.array instrs, .array blockType, .array context] => return ⟨instrs, blockType, context⟩
  | _ => throw "invalid type, expected struct BlockJson"

/-- The document of a text. -/
def extendedDocument : JsonValue → Except String (List (String × JsonValue))
  | .object fields => return JsonValue.ofExtendedFields fields
  | _ => throw "invalid type, expected a map"

/-- Texts are their values here, and documents their fields. -/
def extendedJson : Serde JsonValue (List (String × JsonValue)) where
  fromJsonString := extendedBlock
  documentFromStr := extendedDocument
  fromBson := blockOfFields
  withId id fields :=
    if (fields.lookup "_id").isSome then fields else ("_id", .number (.int id)) :: fields

section Extended

open JsonValue

theorem lookup_ofExtendedFields (fields : List (String × JsonValue)) (key : String) :
    (ofExtendedFields fields).lookup key = (fields.lookup key).map ofExtended := by
  induction fields with
  | nil => rfl
  | cons field rest ih =>
      obtain ⟨k, v⟩ := field
      rw [ofExtendedFields, List.lookup_cons, List.lookup_cons]
      split
      · rfl
      · exact ih

theorem lookup_eq_none_of_plain {fields : List (String × JsonValue)} {key : String}
    (h : (keysOfFields fields).all plainKey = true) (hkey : plainKey key = false) :
    fields.lookup key = none := by
  induction fields with
  | nil => rfl
  | cons field rest ih =>
      obtain ⟨k, v⟩ := field
      simp only [keysOfFields, List.all_cons, List.all_append, Bool.and_eq_true] at h
      have hne : (key == k) = false := by
        refine beq_eq_false_iff_ne.mpr fun heq => ?_
        rw [heq, h.1] at hkey
        cases hkey
      rw [List.lookup_cons, hne]
      exact ih h.2.2

mutual

/-- Values without keys of extended JSON are read as they are. -/
theorem ofExtended_eq : (v : JsonValue) → v.keys.all plainKey = true → v.ofExtended = v
  | .null, _ | .bool _, _ | .number _, _ | .string _, _ => rfl
  | .array elements, h => congrArg _ (ofExtendedList_eq elements h)
  | .object fields, h => by
      rw [ofExtended, lookup_eq_none_of_plain h rfl]
      exact congrArg _ (ofExtendedFields_eq fields h)

theorem ofExtendedList_eq : (l : List JsonValue) → (keysOfList l).all plainKey = true →
    ofExtendedList l = l
  | [], _ => rfl
  | v :: rest, h => by
      rw [keysOfList, List.all_append, Bool.and_eq_true] at h
      rw [ofExtendedList, ofExtended_eq v h.1, ofExtendedList_eq rest h.2]

theorem ofExtendedFields_eq : (l : List (String × JsonValue)) →
    (keysOfFields l).all plainKey = true → ofExtendedFields l = l
  | [], _ => rfl
  | (key, v) :: rest, h => by
      simp only [keysOfFields, List.all_cons, List.all_append, Bool.and_eq_true] at h
      rw [ofExtendedFields, ofExtended_eq v h.2.1, ofExtendedFields_eq rest h.2.2]

end

theorem keysOfList_append (l l' : List JsonValue) :
    keysOfList (l ++ l') = keysOfList l ++ keysOfList l' := by
  induction l with
  | nil => rfl
  | cons v rest ih => rw [List.cons_append, keysOfList, keysOfList, ih, List.append_assoc]

theorem sequenceField_eq_ok {fields : List (String × JsonValue)} {key : String}
    {l : List JsonValue} :
    sequenceField fields key = .ok l ↔ fields.lookup key = some (.array l) := by
  unfold sequenceField
  split
  · rename_i elements h
    rw [h]
    exact ⟨fun he => by rw [Except.ok.inj he], fun he => by cases he; rfl⟩
  · rename_i v hne h
    rw [h]
    exact ⟨fun he => (by cases he), fun he => absurd (Option.some.inj he) (hne l)⟩
  · rename_i h
    rw [h]
    exact ⟨fun he => (by cases he), fun he => (by cases he)⟩

theorem blockOfFields_eq_ok {fields : List (String × JsonValue)} {b : BlockJson} :
    blockOfFields fields = .ok b ↔ fields.lookup "instrs" = some (.array b.instrs) ∧
      fields.lookup "block_type" = some (.array b.blockType) ∧
        fields.lookup "context" = some (.array b.context) := by
  obtain ⟨instrs, blockType, context⟩ := b
  unfold blockOfFields
  rw [← sequenceField_eq_ok, ← sequenceField_eq_ok, ← sequenceField_eq_ok]
  cases sequenceField fields "instrs" <;> cases sequenceField fields "block_type" <;>
    cases sequenceField fields "context" <;> simp [bind, Except.bind, pure, Except.pure]

/-- A sequence without keys of extended JSON is found in the document that is stored. -/
theorem lookup_withId {fields : List (String × JsonValue)} {key : String} {l : List JsonValue}
    (id : ℕ) (hkey : key ≠ "_id") (h : fields.lookup key = some (.array l))
    (hplain : (keysOfList l).all plainKey = true) :
    (extendedJson.withId id (ofExtendedFields fields)).lookup key = some (.array l) := by
  have hread : (ofExtendedFields fields).lookup key = some (.array l) := by
    rw [lookup_ofExtendedFields, h, Option.map_some, ofExtended, ofExtendedList_eq l hplain]
  have hne : (key == "_id") = false := beq_eq_false_iff_ne.mpr hkey
  change List.lookup key (if _ then _ else _) = _
  split
  · exact hread
  · rw [List.lookup_cons, hne]
    exact hread

theorem extendedJson_roundTrip : extendedJson.RoundTrip where
  fromBson_withId := by
    intro text b d id hb hplain hd
    cases text with
    | object fields =>
        obtain rfl := Except.ok.inj hd
        obtain ⟨hinstrs, htypes, hcontext⟩ := blockOfFields_eq_ok.mp hb
        simp only [BlockJson.Plain, keysOfList_append, List.all_append, Bool.and_eq_true] at hplain
        exact blockOfFields_eq_ok.mpr ⟨lookup_withId id (by decide) hinstrs hplain.1.1,
          lookup_withId id (by decide) htypes hplain.1.2,
          lookup_withId id (by decide) hcontext hplain.2⟩
    | _ => cases hd

/-- A database that answers without an error. -/
def Reply.faultless {Document : Type} (collection : List Document) (id : ℕ) :
    Reply collection where
  cursor := collection.map .ok
  inserted := .ok id
  sound d hd := by
    obtain ⟨d', hd', heq⟩ := List.mem_map.mp hd
    exact Except.ok.inj heq ▸ hd'
  complete _ _ hd := List.mem_map_of_mem hd

/-- A block of instructions that have an opcode and nothing else. -/
def opcodeBlock (opcodes : List JsonValue) : BlockJson :=
  ⟨opcodes.map fun opcode => .object [("opcode", opcode)], [], []⟩

def opcodeText (opcodes : List JsonValue) : JsonValue :=
  .object [("instrs", .array (opcodeBlock opcodes).instrs), ("block_type", .array []),
    ("context", .array [])]

theorem denotes_opcodeText (opcodes : List JsonValue) :
    extendedJson.Denotes (opcodeText opcodes) (opcodeBlock opcodes) where
  read := rfl
  objects := by
    intro instr hinstr
    obtain ⟨opcode, -, rfl⟩ := List.mem_map.mp hinstr
    exact ⟨_, rfl⟩

/-- The document that is stored for such a block. -/
def opcodeDocument (id : ℕ) (opcodes : List JsonValue) : List (String × JsonValue) :=
  [("_id", .number (.int id)), ("instrs", .array (opcodeBlock opcodes).instrs),
    ("block_type", .array []), ("context", .array [])]

theorem insertJsonIntoMongodb_deduplicates_two :
    extendedJson.RoundTrip ∧
      Relation.ReflTransGen (Calls extendedJson BlockJson.Plain) []
        [opcodeDocument 0 [.string "iadd"], opcodeDocument 1 [.string "isub"]] ∧
      [opcodeDocument 0 [.string "iadd"], opcodeDocument 1 [.string "isub"]].Pairwise
        (fun d e => ¬ extendedJson.SameInstrs d e ∧ ¬ extendedJson.SameInstrs e d) := by
  have hfirst : Calls extendedJson BlockJson.Plain [] [opcodeDocument 0 [.string "iadd"]] :=
    .ok (.faultless [] 0) (denotes_opcodeText [.string "iadd"]) rfl rfl
  have hsecond : Calls extendedJson BlockJson.Plain [opcodeDocument 0 [.string "iadd"]]
      [opcodeDocument 0 [.string "iadd"], opcodeDocument 1 [.string "isub"]] :=
    .ok (.faultless _ 1) (denotes_opcodeText [.string "isub"]) rfl rfl
  have hrun := (Relation.ReflTransGen.single hfirst).tail hsecond
  exact ⟨extendedJson_roundTrip, hrun,
    (insertJsonIntoMongodb_deduplicates extendedJson_roundTrip hrun).1⟩

/-- The number `5` in extended JSON. -/
def numberInt : JsonValue := .object [("$numberInt", .string "5")]

/-- **A block with a key of extended JSON is stored twice**, as it does not equal the document that
is read back. -/
theorem insertJsonIntoMongodb_deduplicates_numberInt :
    Relation.ReflTransGen (Calls extendedJson fun _ => True) []
        [opcodeDocument 0 [.number (.int 5)], opcodeDocument 1 [.number (.int 5)]] ∧
      extendedJson.SameInstrs (opcodeDocument 0 [.number (.int 5)])
        (opcodeDocument 1 [.number (.int 5)]) ∧
      insertJsonIntoMongodb extendedJson (.faultless [] 0) (opcodeText [numberInt]) [] =
        .ok () [opcodeDocument 0 [.number (.int 5)]] ∧
      ¬ extendedJson.Matches (opcodeDocument 0 [.number (.int 5)]) (opcodeBlock [numberInt]) := by
  have hfirst : Calls extendedJson (fun _ => True) [] [opcodeDocument 0 [.number (.int 5)]] :=
    .ok (.faultless [] 0) (denotes_opcodeText [numberInt]) trivial rfl
  have hsecond : Calls extendedJson (fun _ => True) [opcodeDocument 0 [.number (.int 5)]]
      [opcodeDocument 0 [.number (.int 5)], opcodeDocument 1 [.number (.int 5)]] :=
    .ok (.faultless _ 1) (denotes_opcodeText [numberInt]) trivial rfl
  refine ⟨(Relation.ReflTransGen.single hfirst).tail hsecond, ⟨_, rfl, _, rfl, rfl⟩, rfl, ?_⟩
  rintro ⟨old, hold, hmatch⟩
  obtain rfl := Except.ok.inj hold
  cases hmatch

end Extended

end Clir
