import FlowraValidator.Lib.IndexMap
import FlowraValidator.Lib.OrdMap

/-!
# The gossip table

`gossip/src/crds.rs`: a table with one value for each label, and indexes into the table. A value
replaces the one of its label if it overrides it. The hashes of values that were replaced, rejected
or removed are kept in a list, so that they are not requested again.

A panic is `none`. A value has the data it is stored and compared by, and its hash; what else it
carries is told apart by the hash. Hashes are numbers in the order of their bytes. Metrics are
left out.

* `CrdsData`, `CrdsValue`, `CrdsValueLabel`: values and labels.
* `overrides`, `upserts`: the order of the values of a label.
* `insert`, `remove`, `trimPurged`: the operations.
-/

namespace FlowraValidator.Gossip
open Function

abbrev Pubkey := ℕ

/-! ## Values -/

structure ContactInfo where
  pubkey : Pubkey
  outset : ℕ
  wallclock : ℕ
  deriving DecidableEq

/-- The sender and the wallclock of other data. -/
structure Origin where
  sender : Pubkey
  wallclock : ℕ
  deriving DecidableEq

inductive CrdsData where
  | legacyContactInfo (origin : Origin)
  | vote (ix : ℕ) (origin : Origin)
  | lowestSlot (origin : Origin)
  | legacySnapshotHashes (origin : Origin)
  | accountsHashes (origin : Origin)
  | epochSlots (ix : ℕ) (origin : Origin)
  | legacyVersion (origin : Origin)
  | version (origin : Origin)
  | nodeInstance (origin : Origin)
  | duplicateShred (ix : ℕ) (origin : Origin)
  | snapshotHashes (origin : Origin)
  | contactInfo (node : ContactInfo)
  | restartLastVotedForkSlots (origin : Origin)
  | restartHeaviestFork (origin : Origin)
  deriving DecidableEq

namespace CrdsData

def wallclock : CrdsData → ℕ
  | legacyContactInfo origin | vote _ origin | lowestSlot origin | legacySnapshotHashes origin
  | accountsHashes origin | epochSlots _ origin | legacyVersion origin | version origin
  | nodeInstance origin | duplicateShred _ origin | snapshotHashes origin
  | restartLastVotedForkSlots origin | restartHeaviestFork origin => origin.wallclock
  | contactInfo node => node.wallclock

def pubkey : CrdsData → Pubkey
  | legacyContactInfo origin | vote _ origin | lowestSlot origin | legacySnapshotHashes origin
  | accountsHashes origin | epochSlots _ origin | legacyVersion origin | version origin
  | nodeInstance origin | duplicateShred _ origin | snapshotHashes origin
  | restartLastVotedForkSlots origin | restartHeaviestFork origin => origin.sender
  | contactInfo node => node.pubkey

end CrdsData

inductive CrdsValueLabel where
  | legacyContactInfo (pubkey : Pubkey)
  | vote (ix : ℕ) (pubkey : Pubkey)
  | lowestSlot (pubkey : Pubkey)
  | legacySnapshotHashes (pubkey : Pubkey)
  | epochSlots (ix : ℕ) (pubkey : Pubkey)
  | accountsHashes (pubkey : Pubkey)
  | legacyVersion (pubkey : Pubkey)
  | version (pubkey : Pubkey)
  | nodeInstance (pubkey : Pubkey)
  | duplicateShred (ix : ℕ) (pubkey : Pubkey)
  | snapshotHashes (pubkey : Pubkey)
  | contactInfo (pubkey : Pubkey)
  | restartLastVotedForkSlots (pubkey : Pubkey)
  | restartHeaviestFork (pubkey : Pubkey)
  deriving DecidableEq

structure CrdsValue where
  data : CrdsData
  hash : ℕ
  deriving DecidableEq

namespace CrdsValue

def wallclock (value : CrdsValue) : ℕ := value.data.wallclock

def pubkey (value : CrdsValue) : Pubkey := value.data.pubkey

def label (value : CrdsValue) : CrdsValueLabel :=
  match value.data with
  | .legacyContactInfo _ => .legacyContactInfo value.pubkey
  | .vote ix _ => .vote ix value.pubkey
  | .lowestSlot _ => .lowestSlot value.pubkey
  | .legacySnapshotHashes _ => .legacySnapshotHashes value.pubkey
  | .accountsHashes _ => .accountsHashes value.pubkey
  | .epochSlots ix _ => .epochSlots ix value.pubkey
  | .legacyVersion _ => .legacyVersion value.pubkey
  | .version _ => .version value.pubkey
  | .nodeInstance _ => .nodeInstance value.pubkey
  | .duplicateShred ix _ => .duplicateShred ix value.pubkey
  | .snapshotHashes _ => .snapshotHashes value.pubkey
  | .contactInfo _ => .contactInfo value.pubkey
  | .restartLastVotedForkSlots _ => .restartLastVotedForkSlots value.pubkey
  | .restartHeaviestFork _ => .restartHeaviestFork value.pubkey

end CrdsValue

inductive GossipRoute where
  | localMessage
  | pullRequest
  | pullResponse
  | pushMessage (sender : Pubkey)

inductive CrdsError where
  | duplicatePush (numDups : ℕ)
  | insertFailed
  deriving DecidableEq

structure VersionedCrdsValue where
  ordinal : ℕ
  value : CrdsValue
  localTimestamp : ℕ
  numPushRecv : Option ℕ

/-- `VersionedCrdsValue::new`. -/
def VersionedCrdsValue.new (value : CrdsValue) (cursor localTimestamp : ℕ) (route : GossipRoute) :
    VersionedCrdsValue where
  ordinal := cursor
  value := value
  localTimestamp := localTimestamp
  numPushRecv :=
    match route with
    | .localMessage | .pullRequest => none
    | .pullResponse => some 0
    | .pushMessage _ => some 1

/-! ## Overriding -/

/-- `ContactInfo::overrides`: nothing is said about other nodes, or if all is equal. -/
def ContactInfo.overrides (node other : ContactInfo) : Option Bool :=
  if node.pubkey ≠ other.pubkey then none
  else if node.outset < other.outset ∨
      (node.outset = other.outset ∧ node.wallclock < other.wallclock) then some false
  else if other.outset < node.outset ∨
      (other.outset = node.outset ∧ other.wallclock < node.wallclock) then some true
  else none

/-- The wallclocks are compared, and then the hashes. -/
def overridesByWallclock (value other : CrdsValue) : Bool :=
  if value.wallclock < other.wallclock then false
  else if other.wallclock < value.wallclock then true
  else decide (other.hash < value.hash)

/-- It is asserted that the labels are the same. -/
def overrides (value : CrdsValue) (other : VersionedCrdsValue) : Option Bool :=
  if value.label = other.value.label then
    some (match value.data, other.value.data with
      | .contactInfo node, .contactInfo otherNode =>
        (node.overrides otherNode).getD (overridesByWallclock value other.value)
      | _, _ => overridesByWallclock value other.value)
  else none

/-! ## The table -/

/-- `CRDS_SHARDS_BITS`. -/
def crdsShardsBits : ℕ := 12

/-- The first bytes of a hash of 32 bytes, the first one least. -/
def hashAsU64 (hash : ℕ) : ℕ :=
  ((List.range 8).map fun i => hash / 256 ^ (31 - i) % 256 * 256 ^ i).sum

/-- The shard of a hash: its upper bits. -/
def shardIndex (hash : ℕ) : ℕ := hashAsU64 hash / 2 ^ (64 - crdsShardsBits)

/-- The shards, each from positions in the table to hashes. -/
abbrev CrdsShards := ℕ → IndexMap ℕ ℕ

def CrdsShards.insert (shards : CrdsShards) (index : ℕ) (value : VersionedCrdsValue) : CrdsShards :=
  update shards (shardIndex value.value.hash)
    ((shards (shardIndex value.value.hash)).insert index (hashAsU64 value.value.hash))

def CrdsShards.remove (shards : CrdsShards) (index : ℕ) (value : VersionedCrdsValue) : CrdsShards :=
  match (shards (shardIndex value.value.hash)).swapRemove index with
  | none => shards
  | some (_, _, shard) => update shards (shardIndex value.value.hash) shard

/-- Values by their labels, and positions of values: by their hashes, of contact infos, by their
place in the order of insertions, and by their nodes. -/
structure Crds where
  table : IndexMap CrdsValueLabel VersionedCrdsValue
  cursor : ℕ
  shards : CrdsShards
  nodes : List ℕ
  votes : OrdMap ℕ ℕ
  epochSlots : OrdMap ℕ ℕ
  duplicateShreds : OrdMap ℕ ℕ
  records : OrdMap Pubkey (List ℕ)
  entries : OrdMap ℕ ℕ
  purged : List (ℕ × ℕ)

namespace Crds

/-- `Crds::default()`. -/
def default : Crds := ⟨∅, 0, fun _ => ∅, [], ∅, ∅, ∅, ∅, ∅, []⟩

variable (crds : Crds)

def upserts (value : CrdsValue) : Option Bool :=
  match crds.table.get? value.label with
  | some other => overrides value other
  | none => some true

/-- The position of a value is put into the indexes for its kind. -/
def indexData (value : VersionedCrdsValue) (index : ℕ) : Crds :=
  match value.value.data with
  | .contactInfo _ => { crds with nodes := setInsert index crds.nodes }
  | .vote _ _ => { crds with votes := crds.votes.insert value.ordinal index }
  | .epochSlots _ _ => { crds with epochSlots := crds.epochSlots.insert value.ordinal index }
  | .duplicateShred _ _ =>
    { crds with duplicateShreds := crds.duplicateShreds.insert value.ordinal index }
  | _ => crds

/-- The indexes for the kind of a value that is replaced by another one of its kind. -/
def reindexData (old value : VersionedCrdsValue) (index : ℕ) : Crds :=
  match value.value.data with
  | .vote _ _ => { crds with votes := (crds.votes.erase old.ordinal).insert value.ordinal index }
  | .epochSlots _ _ =>
    { crds with epochSlots := (crds.epochSlots.erase old.ordinal).insert value.ordinal index }
  | .duplicateShred _ _ =>
    { crds with
      duplicateShreds := (crds.duplicateShreds.erase old.ordinal).insert value.ordinal index }
  | _ => crds

/-- `Cursor::consume`. -/
def consume (cursor ordinal : ℕ) : ℕ := max cursor (ordinal + 1)

/-- The first branch of `insert`: the label is new. -/
def insertVacant (value : VersionedCrdsValue) : Crds :=
  let index := crds.table.size
  let crds := { crds with shards := crds.shards.insert index value }
  let crds := crds.indexData value index
  { crds with
    entries := crds.entries.insert value.ordinal index
    records := crds.records.insert value.value.pubkey
      (setInsert index (crds.records[value.value.pubkey]?.getD []))
    cursor := consume crds.cursor value.ordinal
    table := crds.table.insert value.value.label value }

/-- The second branch of `insert`: the value overrides the old one. -/
def insertOver (old value : VersionedCrdsValue) (index now : ℕ) : Crds :=
  let crds := { crds with shards := (crds.shards.remove index old).insert index value }
  let crds := crds.reindexData old value index
  { crds with
    entries := (crds.entries.erase old.ordinal).insert value.ordinal index
    cursor := consume crds.cursor value.ordinal
    purged := crds.purged ++ [(old.value.hash, now)]
    table := crds.table.insert value.value.label value }

/-- The third branch of `insert`: the value is outdated, or a duplicate. -/
def insertFail (old value : VersionedCrdsValue) (now : ℕ) (route : GossipRoute) :
    CrdsError × Crds :=
  if old.value.hash ≠ value.value.hash then
    (.insertFailed, { crds with purged := crds.purged ++ [(value.value.hash, now)] })
  else
    match route with
    | .pushMessage _ =>
      let numPushDups := old.numPushRecv.getD 0
      (.duplicatePush numPushDups,
        { crds with
          table := crds.table.insert value.value.label
            ({ old with numPushRecv := some (min (numPushDups + 1) 255) }) })
    | _ => (.insertFailed, crds)

def insert (value : CrdsValue) (now : ℕ) (route : GossipRoute) :
    Option (Except CrdsError Unit × Crds) :=
  let versioned := VersionedCrdsValue.new value crds.cursor now route
  match crds.table.get? value.label with
  | none => some (.ok (), crds.insertVacant versioned)
  | some old =>
    (overrides value old).map fun wins =>
      if wins then
        (.ok (), crds.insertOver old versioned ((crds.table.indexOf? value.label).getD 0) now)
      else
        match crds.insertFail old versioned now route with
        | (error, crds) => (.error error, crds)

/-- The indexes for the kind of a value that is removed. -/
def unindexData (value : VersionedCrdsValue) (index : ℕ) : Crds :=
  match value.value.data with
  | .contactInfo _ => { crds with nodes := setSwapRemove index crds.nodes }
  | .vote _ _ => { crds with votes := crds.votes.erase value.ordinal }
  | .epochSlots _ _ => { crds with epochSlots := crds.epochSlots.erase value.ordinal }
  | .duplicateShred _ _ => { crds with duplicateShreds := crds.duplicateShreds.erase value.ordinal }
  | _ => crds

/-- The end of `remove`: the last value was moved to the position of the removed one. -/
def moveLast (index : ℕ) : Option Crds :=
  let size := crds.table.size
  match crds.table.entries[index]? with
  | none => some crds
  | some (_, value) => do
    let crds := { crds with shards := (crds.shards.remove size value).insert index value }
    let crds :=
      match value.value.data with
      | .contactInfo _ => { crds with nodes := setInsert index (setSwapRemove size crds.nodes) }
      | _ => crds.indexData value index
    let records ← crds.records[value.value.pubkey]?
    some { crds with
      entries := crds.entries.insert value.ordinal index
      records := crds.records.insert value.value.pubkey
        (setInsert index (setSwapRemove size records)) }

/-- Nothing happens if the label is not in the table. The records of a node are there. -/
def remove (key : CrdsValueLabel) (now : ℕ) : Option Crds :=
  match crds.table.swapRemove key with
  | none => some crds
  | some (index, value, table) => do
    let crds := { crds with
      table := table
      purged := crds.purged ++ [(value.value.hash, now)]
      shards := crds.shards.remove index value }
    let crds := crds.unindexData value index
    let crds := { crds with entries := crds.entries.erase value.ordinal }
    let records ← crds.records[value.value.pubkey]?
    let records := setSwapRemove index records
    let crds := { crds with
      records :=
        if records.isEmpty then crds.records.erase value.value.pubkey
        else crds.records.insert value.value.pubkey records }
    crds.moveLast index

/-- Hashes of values that were purged before the timestamp are dropped from the front. -/
def trimPurged (timestamp : ℕ) : Crds :=
  { crds with purged := crds.purged.dropWhile fun entry => decide (entry.2 < timestamp) }

end Crds
end FlowraValidator.Gossip
