/-
One unit's way from one machine to the other, as `sync_run` takes it, and where it
ends: the two machines agree on the unit, or the settings merge sends it back once.

The content key of a unit on a machine carries the argument. What is on disk decides
it, and for a unit that is gone the sidecar does, so what a transfer writes settles
what the next inventory of either machine will say.
-/
import Lpm.Sync.Apply
import Lpm.Sync.PlanLaws

set_option autoImplicit false

open OrdMap RustText Fallible

namespace Lpm.Sync

open Option

/-! ## Machines -/

structure Machine (V B : Type) where
  disk : Disk V B
  state : SyncState

section
variable {V B : Type} (cx : Codec V B) (m : Machine V B)

/-- `local_digest_map`: the inventory of a machine, and the sidecar it leaves. -/
def local_digest_map : DigestMap × SyncState :=
  reconcile_and_attach (m.disk.read cx) m.state

/-- `plan_for`, between two machines that keep revisions. -/
def plan_for (l r : Machine V B) : List SyncItem :=
  let lm := local_digest_map cx l
  let rm := local_digest_map cx r
  compute_plan_v2 lm.1 rm.1 (lm.2.peer_bases rm.1.device)

/-- What a transfer leaves, and the two digests it was judged by. -/
structure Transferred (V B : Type) where
  sender : Machine V B
  receiver : Machine V B
  stored : String
  incoming : String

/-- A planned unit's way. The machine that runs the sync pulls with the digest and
revision it saw advertised; one that is pushed to goes by what came in and by its own
sidecar. Both record the base: after a push at once, and after a pull the other
machine when it next finds the unit equal. -/
def transfer (pull : Bool) (now : ℤ) (kind : Kind) (name : String) (deleted : Bool)
    (sender receiver : Machine V B) : Except String (Transferred V B) :=
  let s := local_digest_map cx sender
  let q := local_digest_map cx receiver
  let key := item_key kind name
  let known := s.1.get kind name
  (if deleted then .ok none
    else (read_item cx sender.disk kind name).map some).bind fun content =>
    (apply_item cx receiver.disk now kind name content).map fun (disk, ap) =>
      let incoming := if pull then (known.map (·.hash)).getD "" else ap.incoming
      let local_rev :=
        if pull then ((q.1.get kind name).map (·.rev)).getD 0
        else (q.2.items[key]?.map (·.rev)).getD 0
      let (entry, base) := received_state incoming ((known.map (·.rev)).getD 0)
        ((known.map (·.device)).getD "") ap.deleted ap.stored local_rev q.2.device
      { sender := { sender with state := s.2.set_base q.2.device key base }
        receiver := { disk, state := (q.2.set_item key entry).set_base s.2.device key base }
        stored := ap.stored
        incoming }

/-- Both machines after an item, the one that runs the sync first. -/
structure Outcome (V B : Type) where
  here : Machine V B
  there : Machine V B
  stored : String
  incoming : String

/-- One item of a plan carried out. -/
def sync_item (now : ℤ) (l r : Machine V B) (it : SyncItem) : Except String (Outcome V B) :=
  match it.direction with
  | .toLocal =>
    (transfer cx true now it.kind it.name it.deleted r l).map fun t =>
      { here := t.receiver, there := t.sender, stored := t.stored, incoming := t.incoming }
  | .toRemote =>
    (transfer cx false now it.kind it.name it.deleted l r).map fun t =>
      { here := t.sender, there := t.receiver, stored := t.stored, incoming := t.incoming }

/-! ## What the machines say of a unit -/

/-- The content key a machine advertises for a unit. -/
def advertised (kind : Kind) (name : String) : Option String :=
  ((local_digest_map cx m).1.get kind name).map ItemDigest.content_key

@[simp] theorem local_digest_map_device :
    (local_digest_map cx m).1.device = m.state.device := rfl

@[simp] theorem local_digest_map_bases (peer : String) :
    (local_digest_map cx m).2.peer_bases peer = m.state.peer_bases peer := rfl

variable {name : String} {kind : Kind} {m : Machine V B} {d : ItemDigest}

/-- A unit on disk is advertised by its digest, whatever the sidecar holds. -/
theorem local_digest_map_of_file
    (h : (m.disk.read cx).get kind name = some d) :
    ∃ d', (local_digest_map cx m).1.get kind name = some d' ∧ d'.hash = d.hash ∧
      d'.deleted = false := by
  have hd : d.deleted = false := by
    rw [read_get] at h
    obtain ⟨s, _, hs⟩ := bind_eq_some_iff.mp h
    exact (item_digest_live cx hs).2
  have hentry := reconcile_and_attach_entry (m.disk.read cx) m.state kind name
  simp only [h] at hentry
  -- what `reconcile` leaves for a unit on disk is never a tombstone
  have hlive : (observe m.state.device m.state.items[item_key kind name]? d.hash).deleted = false := by
    unfold observe
    rcases m.state.items[item_key kind name]? with _ | entry
    · rfl
    · dsimp only
      split_ifs with hmoved
      · rfl
      · simp only [Bool.or_eq_true, not_or, Bool.not_eq_true] at hmoved
        exact hmoved.1
  refine ⟨decorate (some (observe m.state.device m.state.items[item_key kind name]? d.hash)) d,
    ?_, rfl, hd⟩
  rw [local_digest_map, reconcile_and_attach_get, hentry, h]
  simp only [filter_some, hlive, Bool.false_and, Bool.false_eq_true, if_false,
    map_some]

theorem advertised_of_file
    (h : (m.disk.read cx).get kind name = some d) : advertised cx m kind name = some d.hash := by
  obtain ⟨d', hd', hhash, hlive⟩ := local_digest_map_of_file cx h
  rw [advertised, hd', map_some, ItemDigest.content_key, hlive, hhash]
  rfl

/-- What is advertised as live is on disk. -/
theorem file_of_live
    (h : (local_digest_map cx m).1.get kind name = some d) (hlive : d.deleted = false) :
    ∃ d', (m.disk.read cx).get kind name = some d' ∧ d'.hash = d.hash := by
  rcases hread : (m.disk.read cx).get kind name with _ | d'
  · rw [local_digest_map, reconcile_and_attach_get, hread] at h
    split at h
    · rw [← some.inj h] at hlive
      cases hlive
    · cases h
  · obtain ⟨d'', hd'', hhash, _⟩ := local_digest_map_of_file cx hread
    rw [h] at hd''
    exact ⟨d', rfl, by rw [some.inj hd'', hhash]⟩

/-- What is advertised as deleted is gone from disk, a tombstone in the sidecar and
of a kind that may be deleted. -/
theorem gone_of_deleted
    (h : (local_digest_map cx m).1.get kind name = some d) (hdel : d.deleted = true) :
    (m.disk.read cx).get kind name = none ∧
      carries_tombstone (m.disk.read cx) kind name = true ∧ d.hash = "" ∧
      ∃ e, (local_digest_map cx m).2.items[item_key kind name]? = some e ∧ e.deleted = true := by
  rcases hread : (m.disk.read cx).get kind name with _ | d'
  · rw [local_digest_map, reconcile_and_attach_get, hread] at h
    split at h
    next e he =>
      obtain ⟨hentry, hcond⟩ := filter_eq_some_iff.mp he
      rw [Bool.and_eq_true] at hcond
      refine ⟨rfl, hcond.2, ?_, e, hentry, hcond.1⟩
      rw [← some.inj h]
      rfl
    · cases h
  · obtain ⟨d'', hd'', _, hlive⟩ := local_digest_map_of_file cx hread
    rw [h] at hd''
    rw [some.inj hd'', hlive] at hdel
    cases hdel

/-- A unit that is not found on disk is advertised as deleted, when the sidecar has a
tombstone for it or makes one of what is not found. -/
theorem advertised_of_gone {e : ItemState}
    (hgone : (m.disk.read cx).get kind name = none)
    (hcarries : carries_tombstone (m.disk.read cx) kind name = true)
    (he : m.state.items[item_key kind name]? = some e)
    (hdel : e.deleted = true ∨ tombstones_for (m.disk.read cx) (item_key kind name) = true) :
    advertised cx m kind name = some TOMBSTONE := by
  have hentry := reconcile_and_attach_entry (m.disk.read cx) m.state kind name
  simp only [hgone, he, map_some] at hentry
  obtain ⟨e', hentry, hdel'⟩ : ∃ e', (reconcile_and_attach (m.disk.read cx) m.state).2.items[
      item_key kind name]? = some e' ∧ e'.deleted = true := by
    rcases hlive : e.deleted with _ | _
    -- the entry is live, and `reconcile` buries it
    · have hpresent : (present_units (m.disk.read cx)).contains (item_key kind name) = false := by
        rw [Std.TreeMap.contains_eq_isSome_getElem?, present_units_get, hgone]
        rfl
      have hvanished : vanished (present_units (m.disk.read cx)) (tombstones_for (m.disk.read cx))
          (item_key kind name) e = true := by
        rw [hlive] at hdel
        rw [vanished, hlive, hpresent, hdel.resolve_left Bool.false_ne_true]
        rfl
      rw [if_pos hvanished] at hentry
      exact ⟨_, hentry, rfl⟩
    · have hkept : vanished (present_units (m.disk.read cx)) (tombstones_for (m.disk.read cx))
          (item_key kind name) e = false := by
        rw [vanished, hlive]
        rfl
      rw [hkept] at hentry
      exact ⟨e, hentry, hlive⟩
  rw [advertised, local_digest_map, reconcile_and_attach_get, hentry]
  simp only [filter_some, hdel', hcarries, Bool.and_self, if_true, map_some]
  rfl

/-! ## What a plan says of its unit -/

/-- The digest of the unit on the machine an item comes from. -/
def sent (lm rm : DigestMap) (it : SyncItem) : Option ItemDigest :=
  match it.direction with
  | .toLocal => rm.get it.kind it.name
  | .toRemote => lm.get it.kind it.name

/-- A differing pair is settled towards a copy that is there, and the item is a
deletion when that copy is a tombstone. -/
theorem decide_both_deleted (kind : Kind) (name : String) {l r : SideInfo}
    (base : Option BaseState) (hdel : ¬ (l.deleted = true ∧ r.deleted = true)) :
    (decide_both kind name l r base false).deleted
      = match (decide_both kind name l r base false).direction with
        | .toLocal => r.deleted
        | .toRemote => l.deleted := by
  rcases base with _ | b
  · unfold decide_both resolve_no_base
    rcases hl : l.deleted with _ | _
    · rcases hr : r.deleted with _ | _
      · simp only [Bool.not_false, Bool.and_false, Bool.false_and, Bool.false_eq_true, if_false]
        split_ifs <;> simp only [item]
      · rfl
    · rcases hr : r.deleted with _ | _
      · rfl
      · exact absurd ⟨hl, hr⟩ hdel
  · simp only [decide_both]
    split_ifs <;> rfl

variable {it : SyncItem}

/-- A planned unit is known to the machine it comes from, the item is a deletion when
that machine has it deleted, and the other machine has something else. -/
theorem sent_of_plan {lm rm : DigestMap} {bases : BTreeMap String BaseState}
    (hit : it ∈ compute_plan_v2 lm rm bases) :
    ∃ d, sent lm rm it = some d ∧ it.deleted = d.deleted ∧
      (overwritten lm rm it).map ItemDigest.content_key ≠ some d.content_key := by
  have hres := (mem_plan.mp hit).2
  -- an item of one machine goes from there, and is not deleted there
  have hone : ∀ {side : SideInfo} {dir : Direction},
      one_sided it.kind it.name side dir = some it → side.deleted = false ∧ it.deleted = false := by
    intro side dir h
    unfold one_sided at h
    split_ifs at h with hdel
    refine ⟨by simpa using hdel, ?_⟩
    rw [← some.inj h]
    rcases dir with _ | _ <;> rfl
  rcases hl : lm.get it.kind it.name with _ | l
  · rcases hr : rm.get it.kind it.name with _ | r
    · rw [hl, hr, resolve_pair_none] at hres
      cases hres
    · rw [hl, hr, resolve_pair_right] at hres
      obtain ⟨hside, hdel⟩ := hone hres
      rw [side_info_is_deleted] at hside
      refine ⟨r, ?_, hdel.trans hside.symm, ?_⟩
      · rw [sent, one_sided_direction hres, hr]
      · simp [overwritten, one_sided_direction hres, hl]
  · rcases hr : rm.get it.kind it.name with _ | r
    · rw [hl, hr, resolve_pair_left] at hres
      obtain ⟨hside, hdel⟩ := hone hres
      rw [side_info_is_deleted] at hside
      refine ⟨l, ?_, hdel.trans hside.symm, ?_⟩
      · rw [sent, one_sided_direction hres, hl]
      · simp [overwritten, one_sided_direction hres, hr]
    · rw [hl, hr, resolve_pair_both] at hres
      split_ifs at hres with hck
      have hboth : ¬ ((side_info (some l) false).deleted = true ∧
          (side_info (some r) false).deleted = true) := by
        rw [side_info_is_deleted, side_info_is_deleted]
        rintro ⟨hdl, hdr⟩
        exact hck (by simp [ItemDigest.content_key, hdl, hdr])
      have hdel := decide_both_deleted it.kind it.name bases[item_key it.kind it.name]? hboth
      rw [some.inj hres] at hdel
      simp only [side_info_is_deleted] at hdel
      -- an item of both goes the way the plan says
      rcases hdir : it.direction with _ | _
      · refine ⟨r, by simp [sent, hdir, hr], by simpa [hdir] using hdel, ?_⟩
        simpa [overwritten, hdir, hl] using hck
      · refine ⟨l, by simp [sent, hdir, hl], by simpa [hdir] using hdel, ?_⟩
        simpa [overwritten, hdir, hr] using Ne.symm hck

variable {l r : Machine V B}

/-- Where both machines advertise one content key there is nothing to plan. -/
theorem not_planned_of_advertised
    (h : advertised cx l kind name = advertised cx r kind name) :
    ∀ it ∈ plan_for cx l r, ¬ (it.kind = kind ∧ it.name = name) := by
  rintro it hit ⟨rfl, rfl⟩
  obtain ⟨d, hsent, _, hne⟩ := sent_of_plan hit
  have hd : (sent (local_digest_map cx l).1 (local_digest_map cx r).1 it).map ItemDigest.content_key
      = some d.content_key := by rw [hsent, map_some]
  rw [← hd] at hne
  rcases hdir : it.direction with _ | _
  · simp only [overwritten, sent, hdir] at hne
    exact hne h
  · simp only [overwritten, sent, hdir] at hne
    exact hne h.symm

/-! ## What a transfer leaves -/

/-- What a live unit's transfer did: the sender's files are as they were, the
receiver's unit holds what landed, and both have the sender's state as their base. -/
structure LiveTransfer (pull : Bool) (now : ℤ) (kind : Kind) (name : String)
    (sender receiver : Machine V B) (t : Transferred V B) (c : Content V B)
    (digest : String) : Prop where
  read : read_item cx sender.disk kind name = .ok c
  digest_ok : portable_digest cx kind name c = .ok digest
  incoming_eq : t.incoming = if pull then
    (((local_digest_map cx sender).1.get kind name).map (·.hash)).getD "" else digest
  receiver_disk : t.receiver.disk
    = receiver.disk.write kind name ⟨landed receiver.disk kind name c, now⟩
  stored_ok : portable_digest cx kind name (landed receiver.disk kind name c) = .ok t.stored
  skills_read : kind = .skill → receiver.disk.skills.isSome = true
  written : kind = .global → receiver.disk.dangles name = false ∧
    (name = "settings.json" → c = .mapping c.object)
  sender_disk : t.sender.disk = sender.disk
  sender_base : ∃ b, (t.sender.state.peer_bases t.receiver.state.device)[item_key kind name]?
    = some b ∧ b.content_key = t.incoming
  receiver_base : ∃ b, (t.receiver.state.peer_bases t.sender.state.device)[item_key kind name]?
    = some b ∧ b.content_key = t.incoming
  receiver_entry : ∃ e, t.receiver.state.items[item_key kind name]? = some e

variable {t : Transferred V B} {sender receiver : Machine V B} {now : ℤ}

theorem transfer_live {pull : Bool}
    (h : transfer cx pull now kind name false sender receiver = .ok t) :
    ∃ c digest, LiveTransfer cx pull now kind name sender receiver t c digest := by
  unfold transfer at h
  obtain ⟨content, hcontent, h⟩ := bind_ok h
  rw [if_neg (by simp)] at hcontent
  obtain ⟨c, hread, rfl⟩ := map_ok hcontent
  obtain ⟨⟨disk, ap⟩, happly, rfl⟩ := map_ok h
  obtain ⟨digest, hdigest, happly⟩ := bind_ok happly
  obtain ⟨⟨disk', stored⟩, hwrite, heq⟩ := map_ok happly
  cases heq
  obtain ⟨hdisk, hstored, hskills, hwritten⟩ := apply_content_ok cx hwrite
  refine ⟨c, digest, hread, hdigest, rfl, hdisk, hstored, hskills, hwritten, rfl, ?_, ?_, ?_⟩
  · exact ⟨_, (set_base_get _ _ _ _ _).trans (if_pos rfl), rfl⟩
  · exact ⟨_, (set_base_get _ _ _ _ _).trans (if_pos rfl), rfl⟩
  · exact ⟨_, Std.TreeMap.getElem?_insert_self⟩

/-- What a deletion did. -/
theorem transfer_deleted {pull : Bool}
    (h : transfer cx pull now kind name true sender receiver = .ok t) :
    delete_item cx receiver.disk kind name = .ok t.receiver.disk ∧
      (∃ e, t.receiver.state.items[item_key kind name]? = some e ∧ e.deleted = true) ∧
      t.sender.disk = sender.disk ∧
      t.sender.state.items = (local_digest_map cx sender).2.items ∧
      t.stored = "" ∧
      t.incoming = if pull then
        (((local_digest_map cx sender).1.get kind name).map (·.hash)).getD "" else "" := by
  unfold transfer at h
  obtain ⟨content, hcontent, h⟩ := bind_ok h
  rw [if_pos rfl] at hcontent
  obtain rfl := Except.ok.inj hcontent
  obtain ⟨⟨disk, ap⟩, happly, rfl⟩ := map_ok h
  obtain ⟨disk', hdelete, heq⟩ := map_ok happly
  cases heq
  refine ⟨hdelete, ?_, rfl, rfl, rfl, rfl⟩
  refine ⟨_, Std.TreeMap.getElem?_insert_self, ?_⟩
  rfl

/-! ## Where an item ends -/

/-- Neither machine plans the unit any more. -/
def Settled (a b : Machine V B) (kind : Kind) (name : String) : Prop :=
  (∀ it ∈ plan_for cx a b, ¬ (it.kind = kind ∧ it.name = name)) ∧
    ∀ it ∈ plan_for cx b a, ¬ (it.kind = kind ∧ it.name = name)

/-- The next plan of `a` has one item for the unit, which goes the given way without a
conflict, and carrying it out settles the unit. -/
def OneMorePush (dir : Direction) (a b : Machine V B) (kind : Kind) (name : String) : Prop :=
  ∃ it, (it ∈ plan_for cx a b ∧ it.kind = kind ∧ it.name = name) ∧
    (∀ it' ∈ plan_for cx a b, it'.kind = kind → it'.name = name → it' = it) ∧
    it.direction = dir ∧ it.conflict = false ∧ it.deleted = false ∧
    ∀ now, ∃ out, sync_item cx now a b it = .ok out ∧ Settled cx out.here out.there kind name

/-- Carrying out an item of a plan brings the two machines together on its unit: at
once when what was stored is what came in, and with one push back when it is not. -/
def Converges (l r : Machine V B) (it : SyncItem) : Prop :=
  ∀ now out, sync_item cx now l r it = .ok out →
    (out.stored = out.incoming → Settled cx out.here out.there it.kind it.name) ∧
    (out.stored ≠ out.incoming →
      OneMorePush cx it.direction.flip out.here out.there it.kind it.name ∧
        OneMorePush cx it.direction out.there out.here it.kind it.name)

/-- The machine an item comes from and the one it goes to. -/
def ends (l r : Machine V B) (dir : Direction) : Machine V B × Machine V B :=
  match dir with
  | .toLocal => (r, l)
  | .toRemote => (l, r)

/-- The file a template is sent from has the content it is listed with, and nothing
at the receiver hides the file it is written to. -/
def TemplateLands (sender receiver : Machine V B) (name : String) : Prop :=
  (∀ t, sender.disk.templates[name]? = some t →
    t.read.map (fun s => cx.sha256_hex s.content) = t.listed.map fun s => cx.sha256_hex s.content) ∧
  receiver.disk.yaml_shadows .template name = false

/-- A global file is written where the receiver's inventory finds it, or not at all. -/
def GlobalLands (receiver : Machine V B) (name : String) : Prop :=
  receiver.disk.link name = none ∨ receiver.disk.dangles name = true

variable {a b : Machine V B}

theorem settled_of_advertised
    (h : advertised cx a kind name = advertised cx b kind name) : Settled cx a b kind name :=
  ⟨not_planned_of_advertised cx h, not_planned_of_advertised cx h.symm⟩

theorem Settled.symm {cx : Codec V B}
    (h : Settled cx a b kind name) : Settled cx b a kind name := ⟨h.2, h.1⟩

/-- A step of `sync_run` is the transfer between the two ends of the item. -/
theorem sync_item_ok {out : Outcome V B}
    (h : sync_item cx now l r it = .ok out) :
    ∃ t, transfer cx (it.direction = .toLocal) now it.kind it.name it.deleted
        (ends l r it.direction).1 (ends l r it.direction).2 = .ok t ∧
      t.stored = out.stored ∧ t.incoming = out.incoming ∧
      ends out.here out.there it.direction = (t.sender, t.receiver) := by
  unfold sync_item at h
  rcases hdir : it.direction with _ | _
  · rw [hdir] at h
    obtain ⟨t, ht, rfl⟩ := map_ok h
    exact ⟨t, by simpa [ends] using ht, rfl, rfl, rfl⟩
  · rw [hdir] at h
    obtain ⟨t, ht, rfl⟩ := map_ok h
    exact ⟨t, by simpa [ends] using ht, rfl, rfl, rfl⟩

/-- Settling does not depend on which machine ran the sync. -/
theorem settled_ends {d : Direction} :
    Settled cx (ends a b d).1 (ends a b d).2 kind name ↔ Settled cx a b kind name := by
  rcases d with _ | _
  · exact ⟨Settled.symm, Settled.symm⟩
  · exact Iff.rfl

theorem ends_flip (a b : Machine V B) (dir : Direction) :
    ends a b dir.flip = ((ends a b dir).2, (ends a b dir).1) := by
  rcases dir with _ | _ <;> rfl

/-- A planned item, from its sender: what the sender has of the unit, and that the
receiver advertises something else. -/
theorem sender_of_plan (hit : it ∈ plan_for cx l r) :
    ∃ d, (local_digest_map cx (ends l r it.direction).1).1.get it.kind it.name = some d ∧
      it.deleted = d.deleted ∧
      advertised cx (ends l r it.direction).2 it.kind it.name ≠ some d.content_key ∧
      Planned (local_digest_map cx (ends l r it.direction).1).1
        (local_digest_map cx (ends l r it.direction).2).1 it.kind it.name := by
  obtain ⟨d, hd, hdel, hne⟩ := sent_of_plan hit
  have hplan := (mem_plan.mp hit).1
  rcases hdir : it.direction with _ | _
  · simp only [sent, overwritten, hdir] at hd hne
    exact ⟨d, hd, hdel, hne, planned_comm.mp hplan⟩
  · simp only [sent, overwritten, hdir] at hd hne
    exact ⟨d, hd, hdel, hne, hplan⟩

/-- And a transfer between the two ends is a step of it. -/
theorem sync_item_of_transfer
    (h : transfer cx (it.direction = .toLocal) now it.kind it.name it.deleted
      (ends l r it.direction).1 (ends l r it.direction).2 = .ok t) :
    ∃ out, sync_item cx now l r it = .ok out ∧ t.stored = out.stored ∧
      t.incoming = out.incoming ∧ ends out.here out.there it.direction = (t.sender, t.receiver) := by
  unfold sync_item
  rcases hdir : it.direction with _ | _
  · rw [hdir] at h
    have h' : transfer cx true now it.kind it.name it.deleted r l = .ok t := by
      simpa [ends] using h
    exact ⟨_, by rw [h']; rfl, rfl, rfl, rfl⟩
  · rw [hdir] at h
    have h' : transfer cx false now it.kind it.name it.deleted l r = .ok t := by
      simpa [ends] using h
    exact ⟨_, by rw [h']; rfl, rfl, rfl, rfl⟩

/-! ## A live unit -/

section
variable {pull : Bool} {now : ℤ} {kind : Kind} {name : String} {sender receiver : Machine V B}
  {t : Transferred V B} {c : Content V B} {digest : String} {d : ItemDigest}

/-- A unit is sent with the digest it is listed by. -/
theorem sent_digest {m : Machine V B} (h : read_item cx m.disk kind name = .ok c)
    (hd : (m.disk.read cx).get kind name = some d)
    (hland : kind = .template → ∀ t, m.disk.templates[name]? = some t →
      t.read.map (fun s => cx.sha256_hex s.content)
        = t.listed.map fun s => cx.sha256_hex s.content) :
    portable_digest cx kind name c = .ok d.hash := by
  rw [read_get] at hd
  obtain ⟨s, hs, hdigest⟩ := bind_eq_some_iff.mp hd
  have hlisted := (item_digest_live cx hdigest).1
  by_cases hkind : kind = .template
  · subst hkind
    obtain ⟨t, ht, hts⟩ := bind_eq_some_iff.mp hs
    obtain ⟨_, t', s', ht', hts', rfl⟩ := read_template_ok cx h
    obtain rfl : t = t' := some.inj (ht.symm.trans ht')
    have hread := hland rfl t ht
    rw [hts, hts', map_some, map_some] at hread
    rw [← hlisted]
    exact congrArg Except.ok (some.inj hread)
  · rw [(read_item_ok cx h hkind hs).1, hlisted]

theorem item_digest_of_ok (kind : Kind) (name : String) {s : Stored V B} {hash : String}
    (h : portable_digest cx kind name s.content = .ok hash) :
    ∃ d, item_digest cx kind name s = some d ∧ d.hash = hash := by
  unfold item_digest
  rw [h]
  exact ⟨_, rfl, rfl⟩

variable (h : LiveTransfer cx pull now kind name sender receiver t c digest)
include h

/-- The receiver advertises what was stored, unless the file it went to is hidden. -/
theorem advertised_receiver (hlink : kind = .global → receiver.disk.link name = none) :
    advertised cx t.receiver kind name
      = if receiver.disk.yaml_shadows kind name then advertised cx receiver kind name
        else some t.stored := by
  have hfile := write_file receiver.disk kind name
    ⟨landed receiver.disk kind name c, now⟩ h.skills_read hlink
  rw [← h.receiver_disk] at hfile
  by_cases hshadow : receiver.disk.yaml_shadows kind name = true
  · rw [if_pos hshadow] at hfile ⊢
    -- a template is listed by the `.yaml` before and after
    obtain ⟨rfl, s, hs⟩ := yaml_shadows_file hshadow
    obtain ⟨d', hd', _⟩ := item_digest_of_ok cx .template name (s := s) rfl
    have hbefore : (receiver.disk.read cx).get .template name = some d' := by
      rw [read_get, hs, bind_some, hd']
    have hafter : (t.receiver.disk.read cx).get .template name = some d' := by
      rw [read_get, hfile, hs, bind_some, hd']
    rw [advertised_of_file cx hbefore, advertised_of_file cx hafter]
  · rw [if_neg hshadow] at hfile ⊢
    obtain ⟨d', hd', hhash⟩ := item_digest_of_ok cx kind name
      (s := ⟨landed receiver.disk kind name c, now⟩) h.stored_ok
    have hget : (t.receiver.disk.read cx).get kind name = some d' := by
      rw [read_get, hfile, bind_some, hd']
    rw [advertised_of_file cx hget, hhash]

variable (hd : (local_digest_map cx sender).1.get kind name = some d)
include hd

/-- The sender advertises what it did. -/
theorem advertised_sender (hlive : d.deleted = false) :
    advertised cx t.sender kind name = some d.hash := by
  obtain ⟨d', hd', hhash⟩ := file_of_live cx hd hlive
  rw [← h.sender_disk] at hd'
  rw [advertised_of_file cx hd', hhash]

/-- What came in has the digest the sender advertised. -/
theorem incoming_of_live (hlive : d.deleted = false)
    (hland : kind = .template → TemplateLands cx sender receiver name) :
    digest = d.hash ∧ t.incoming = d.hash := by
  obtain ⟨d', hd', hhash⟩ := file_of_live cx hd hlive
  have hsent := sent_digest cx h.read hd' fun hk => (hland hk).1
  have hdigest : digest = d.hash := by
    rw [h.digest_ok] at hsent
    rw [Except.ok.inj hsent, hhash]
  refine ⟨hdigest, ?_⟩
  rw [h.incoming_eq, hd, hdigest]
  rcases pull with _ | _ <;> rfl

/-- A live unit that landed as it came in settles. -/
theorem settled_of_live (hlive : d.deleted = false)
    (hland : kind = .template → TemplateLands cx sender receiver name)
    (hlink : kind = .global → receiver.disk.link name = none)
    (heq : t.stored = t.incoming) : Settled cx t.sender t.receiver kind name := by
  have hshadow : ¬ receiver.disk.yaml_shadows kind name = true := by
    intro hshadow
    obtain ⟨rfl, _⟩ := yaml_shadows_file hshadow
    rw [(hland rfl).2] at hshadow
    cases hshadow
  refine settled_of_advertised cx ?_
  rw [advertised_sender cx h hd hlive, advertised_receiver cx h hlink, if_neg hshadow, heq,
    (incoming_of_live cx h hd hlive hland).2]

/-- Only the settings merge stores something else than what came in. -/
theorem settings_of_ne (hlive : d.deleted = false)
    (hland : kind = .template → TemplateLands cx sender receiver name)
    (hne : t.stored ≠ t.incoming) : kind = .global ∧ name = "settings.json" := by
  by_contra hnot
  obtain ⟨hdigest, hincoming⟩ := incoming_of_live cx h hd hlive hland
  have hsame := h.stored_ok
  rw [landed_digest cx receiver.disk c hnot, h.digest_ok] at hsame
  refine hne ?_
  rw [← Except.ok.inj hsame, hincoming, hdigest]

end

/-! ## A deletion -/

theorem skills_isSome (m : Machine V B) :
    (local_digest_map cx m).1.skills.isSome = m.disk.skills.isSome := by
  simp [local_digest_map, reconcile_and_attach, Disk.read]

/-- A unit that may be planned carries its tombstone on both machines or on neither. -/
theorem carries_of_planned
    (hplan : Planned (local_digest_map cx a).1 (local_digest_map cx b).1 kind name)
    (h : carries_tombstone (a.disk.read cx) kind name = true) :
    carries_tombstone (b.disk.read cx) kind name = true := by
  rcases kind with _ | _ | _ | _ | _
  · cases h
  · exact h
  · cases h
  · have hskills := hplan.1.2
    rw [skills_isSome] at hskills
    simpa [carries_tombstone, Disk.read] using hskills
  · rfl

theorem settled_of_deleted {pull : Bool}
    (h : transfer cx pull now kind name true sender receiver = .ok t)
    (hplan : Planned (local_digest_map cx sender).1 (local_digest_map cx receiver).1 kind name)
    (hd : (local_digest_map cx sender).1.get kind name = some d) (hdel : d.deleted = true) :
    t.stored = t.incoming ∧ Settled cx t.sender t.receiver kind name := by
  obtain ⟨hdelete, ⟨e, he, hedel⟩, hdisk, hitems, hstored, hincoming⟩ := transfer_deleted cx h
  obtain ⟨hgone, hcarries, hhash, e', he', hedel'⟩ := gone_of_deleted cx hd hdel
  obtain ⟨hfile, hskills⟩ := delete_item_ok cx hdelete
  have hsender : advertised cx t.sender kind name = some TOMBSTONE := by
    refine advertised_of_gone cx ?_ ?_ (e := e') ?_ (Or.inl hedel')
    · rw [hdisk, hgone]
    · rw [hdisk, hcarries]
    · rw [hitems, he']
  have hreceiver : advertised cx t.receiver kind name = some TOMBSTONE := by
    refine advertised_of_gone cx ?_ ?_ he (Or.inl hedel)
    · rw [read_get, hfile, Option.bind_none]
    · have hbefore := carries_of_planned cx hplan hcarries
      rcases kind with _ | _ | _ | _ | _
      · cases hbefore
      · exact hbefore
      · cases hbefore
      · simp only [carries_tombstone, Disk.read, isSome_map] at hbefore ⊢
        rw [hskills rfl, hbefore]
      · rfl
  refine ⟨?_, settled_of_advertised cx (hsender.trans hreceiver.symm)⟩
  rw [hstored, hincoming, hd, map_some, getD_some, hhash]
  rcases pull with _ | _ <;> rfl

/-! ## The settings merge sends the unit back once -/

/-- Against a base that one machine still stands at, the plan takes the other
machine's copy, without a conflict. -/
theorem planned_off_base {ld rd : ItemDigest}
    {b : BaseState} (hkind : kind ≠ .project)
    (hplan : Planned (local_digest_map cx l).1 (local_digest_map cx r).1 kind name)
    (hl : (local_digest_map cx l).1.get kind name = some ld)
    (hr : (local_digest_map cx r).1.get kind name = some rd)
    (hb : (l.state.peer_bases r.state.device)[item_key kind name]? = some b)
    (hne : ld.content_key ≠ rd.content_key) :
    (rd.content_key = b.content_key →
      item kind name .toRemote ld.mtime rd.mtime false ld.deleted ∈ plan_for cx l r) ∧
    (ld.content_key = b.content_key →
      item kind name .toLocal ld.mtime rd.mtime false rd.deleted ∈ plan_for cx l r) := by
  have hbase : ((local_digest_map cx l).2.peer_bases (local_digest_map cx r).1.device)[
      item_key kind name]? = some b := by
    rw [local_digest_map_device, local_digest_map_bases, hb]
  constructor
  · intro hrb
    refine mem_plan.mpr ⟨hplan, ?_⟩
    simp only [item_kind, item_name]
    rw [hl, hr, resolve_pair_both, if_neg hne, hbase]
    simp [decide_both, side_info_ck, hkind, hrb, side_info_mtime, side_info_is_deleted]
  · intro hlb
    have hrb : rd.content_key ≠ b.content_key := hlb ▸ Ne.symm hne
    refine mem_plan.mpr ⟨hplan, ?_⟩
    simp only [item_kind, item_name]
    rw [hl, hr, resolve_pair_both, if_neg hne, hbase]
    simp [decide_both, side_info_ck, hkind, hlb, hrb, side_info_mtime, side_info_is_deleted]

theorem settings_link (disk : Disk V B) : disk.link "settings.json" = none :=
  if_neg (by decide)

theorem settings_file (disk : Disk V B) :
    disk.file .global "settings.json" = disk.globals["settings.json"]? := by
  rw [Disk.file, Disk.global_file, settings_link]
  rfl

/-- `settings.json` with an object in it, as a machine lists it. -/
theorem settings_listed {s : Stored V B} {map : BTreeMap String V}
    (h : m.disk.file .global "settings.json" = some s) (hs : s.content = .mapping map) :
    ∃ d, (local_digest_map cx m).1.get .global "settings.json" = some d ∧
      d.hash = cx.hash_object (without PER_MACHINE_KEYS map).toList ∧ d.deleted = false := by
  have hdigest : portable_digest cx .global "settings.json" s.content
      = .ok (cx.hash_object (without PER_MACHINE_KEYS map).toList) := by rw [hs]; rfl
  obtain ⟨d, hd, hhash⟩ := item_digest_of_ok cx .global "settings.json" hdigest
  have hget : (m.disk.read cx).get .global "settings.json" = some d := by
    rw [read_get, h, bind_some, hd]
  obtain ⟨d', hd', hhash', hlive⟩ := local_digest_map_of_file cx hget
  exact ⟨d', hd', hhash'.trans hhash, hlive⟩

/-- Settings sent to a machine whose own are all in them are stored as they came. -/
theorem settings_back (pull : Bool) (now : ℤ) {x y : Machine V B} {sx sy : Stored V B}
    {inc own : BTreeMap String V}
    (hx : x.disk.file .global "settings.json" = some sx)
    (hsx : sx.content = .mapping (merge_settings inc own))
    (hy : y.disk.file .global "settings.json" = some sy) (hsy : sy.content = .mapping inc) :
    ∃ t, transfer cx pull now .global "settings.json" false x y = .ok t ∧
      t.stored = t.incoming := by
  obtain ⟨d, hd, hhash, _⟩ := settings_listed cx hx hsx
  rw [settings_file] at hx hy
  have hsafe : safe_global_rel "settings.json" = .ok () := by decide
  have hread : read_item cx x.disk .global "settings.json"
      = .ok (.mapping (merge_settings inc own)) := by
    simp only [read_item, hsafe, hx, read_file, hsx]
    rfl
  -- the merge adds nothing to what came in
  have hsame : portable_hash cx PER_MACHINE_KEYS
      (.mapping (merge_settings (merge_settings inc own) inc) : Content V B)
      = portable_hash cx PER_MACHINE_KEYS (.mapping (merge_settings inc own)) :=
    portable_hash_congr cx fun k hk => merge_settings_back inc own hk
  have hmerge : merge_settings_bytes cx (.mapping (merge_settings inc own))
      y.disk.globals["settings.json"]?
      = .ok (.mapping (merge_settings (merge_settings inc own) inc)) := by
    simp only [merge_settings_bytes, hy, map_some, getD_some, hsy, Content.object]
  obtain ⟨disk, happly⟩ : ∃ disk, apply_item cx y.disk now .global "settings.json"
      (some (.mapping (merge_settings inc own))) = .ok (disk,
        { incoming := cx.hash_object (without PER_MACHINE_KEYS (merge_settings inc own)).toList
          stored := cx.hash_object (without PER_MACHINE_KEYS (merge_settings inc own)).toList
          deleted := false }) := by
    refine ⟨y.disk.write .global "settings.json"
      ⟨.mapping (merge_settings (merge_settings inc own) inc), now⟩, ?_⟩
    have hstored : global_digest cx "settings.json"
        (.mapping (merge_settings (merge_settings inc own) inc) : Content V B)
        = .ok (cx.hash_object (without PER_MACHINE_KEYS (merge_settings inc own)).toList) := hsame
    have hglobal : apply_global cx y.disk now "settings.json" (.mapping (merge_settings inc own))
        = .ok (y.disk.write .global "settings.json"
            ⟨.mapping (merge_settings (merge_settings inc own) inc), now⟩,
          cx.hash_object (without PER_MACHINE_KEYS (merge_settings inc own)).toList) := by
      have hdangles : ¬ y.disk.dangles "settings.json" = true := by
        rw [Disk.dangles, settings_link]
        exact Bool.false_ne_true
      unfold apply_global
      rw [hsafe, if_pos rfl, hmerge]
      simp only [Except.bind, if_neg hdangles, hstored, Except.map]
    have htelegram : ¬ "settings.json" = TELEGRAM_FILE := by decide
    simp only [apply_item, apply_content, if_neg htelegram]
    rw [hglobal]
    rfl
  unfold transfer
  simp only [Bool.false_eq_true, if_false, hread, Except.map, Except.bind, happly]
  refine ⟨_, rfl, ?_⟩
  simp only [hd, map_some, getD_some, hhash]
  rcases pull with _ | _ <;> rfl

theorem planned_settings (a b : Machine V B) :
    Planned (local_digest_map cx a).1 (local_digest_map cx b).1 .global "settings.json" :=
  ⟨by decide, Or.inr (by decide)⟩

/-- The machine with the merge pushes it to the one whose settings are all in it, from
whichever side the next sync is run. -/
theorem one_more_push {dir : Direction} {a b x y : Machine V B} {sx sy : Stored V B}
    {inc own : BTreeMap String V} {base : BaseState} (hends : ends a b dir = (x, y))
    (hx : x.disk.file .global "settings.json" = some sx)
    (hsx : sx.content = .mapping (merge_settings inc own))
    (hy : y.disk.file .global "settings.json" = some sy) (hsy : sy.content = .mapping inc)
    (hbase : (a.state.peer_bases b.state.device)[item_key .global "settings.json"]? = some base)
    (hkey : base.content_key = cx.hash_object (without PER_MACHINE_KEYS inc).toList)
    (hne : cx.hash_object (without PER_MACHINE_KEYS (merge_settings inc own)).toList
      ≠ cx.hash_object (without PER_MACHINE_KEYS inc).toList) :
    OneMorePush cx dir a b .global "settings.json" := by
  obtain ⟨dx, hdx, hxhash, hxlive⟩ := settings_listed cx hx hsx
  obtain ⟨dy, hdy, hyhash, hylive⟩ := settings_listed cx hy hsy
  have hxkey : dx.content_key = dx.hash := by rw [ItemDigest.content_key, hxlive]; rfl
  have hykey : dy.content_key = dy.hash := by rw [ItemDigest.content_key, hylive]; rfl
  have hbkey : dy.content_key = base.content_key := by rw [hykey, hyhash, hkey]
  have hkeys : dx.content_key ≠ dy.content_key := by
    rw [hxkey, hykey, hxhash, hyhash]
    exact hne
  -- the item, in the order the machine that plans has the two
  obtain ⟨it, hit, hk, hn, hdir, hconflict, hdel⟩ : ∃ it ∈ plan_for cx a b,
      it.kind = .global ∧ it.name = "settings.json" ∧ it.direction = dir ∧
        it.conflict = false ∧ it.deleted = false := by
    rcases dir with _ | _
    · obtain ⟨rfl, rfl⟩ : b = x ∧ a = y := Prod.ext_iff.mp hends
      have hoff := (planned_off_base cx (by decide) (planned_settings cx a b) hdy hdx hbase
        hkeys.symm).2 hbkey
      exact ⟨_, hoff, rfl, rfl, rfl, rfl, hxlive⟩
    · obtain ⟨rfl, rfl⟩ : a = x ∧ b = y := Prod.ext_iff.mp hends
      have hoff := (planned_off_base cx (by decide) (planned_settings cx a b) hdx hdy hbase
        hkeys).1 hbkey
      exact ⟨_, hoff, rfl, rfl, rfl, rfl, hxlive⟩
  refine ⟨it, ⟨hit, hk, hn⟩, ?_, hdir, hconflict, hdel, ?_⟩
  · intro it' hit' hk' hn'
    exact plan_unit_unique hit' hit (hk'.trans hk.symm) (hn'.trans hn.symm)
  · intro now
    obtain ⟨t, ht, hstored⟩ := settings_back cx (dir = .toLocal) now hx hsx hy hsy
    have ht' : transfer cx (it.direction = .toLocal) now it.kind it.name it.deleted
        (ends a b it.direction).1 (ends a b it.direction).2 = .ok t := by
      rw [hdir, hk, hn, hdel, hends, ht]
    obtain ⟨out, hout, _, _, hout_ends⟩ := sync_item_of_transfer cx ht'
    refine ⟨out, hout, ?_⟩
    rw [← settled_ends cx (d := it.direction), hout_ends]
    obtain ⟨c, digest, hlive⟩ := transfer_live cx ht
    exact settled_of_live cx hlive hdx hxlive (by simp) (fun _ => settings_link _) hstored

/-- After a settings merge that kept keys of the receiver, whichever machine plans next
has one push from the receiver. -/
theorem pushes_of_settings {pull : Bool} {sender receiver a b : Machine V B}
    {c : Content V B} {digest : String} {dir : Direction}
    (h : LiveTransfer cx pull now .global "settings.json" sender receiver t c digest)
    (hd : (local_digest_map cx sender).1.get .global "settings.json" = some d)
    (hlive : d.deleted = false) (hne : t.stored ≠ t.incoming)
    (hends : ends a b dir = (t.sender, t.receiver)) :
    OneMorePush cx dir.flip a b .global "settings.json" ∧
      OneMorePush cx dir b a .global "settings.json" := by
  obtain ⟨d', hd', _⟩ := file_of_live cx hd hlive
  rw [read_get] at hd'
  obtain ⟨s, hs, _⟩ := bind_eq_some_iff.mp hd'
  have hcontent := (read_item_ok cx h.read nofun hs).2
  have hobject := (h.written rfl).2 rfl
  have hinc : s.content = .mapping c.object := by rw [← hcontent rfl, hobject]; rfl
  -- the two files, and what their digests are
  let own := (receiver.disk.globals["settings.json"]?.map fun s => s.content.object).getD ∅
  have hsender : t.sender.disk.file .global "settings.json" = some s := by rw [h.sender_disk, hs]
  have hreceiver : t.receiver.disk.file .global "settings.json"
      = some ⟨.mapping (merge_settings c.object own), now⟩ := by
    rw [h.receiver_disk, write_file receiver.disk .global _ _ nofun fun _ => settings_link _]
    rfl
  have hstored : t.stored
      = cx.hash_object (without PER_MACHINE_KEYS (merge_settings c.object own)).toList :=
    (Except.ok.inj h.stored_ok).symm
  have hincoming : t.incoming = cx.hash_object (without PER_MACHINE_KEYS c.object).toList := by
    have hdigest := h.digest_ok
    rw [hobject] at hdigest
    rw [(incoming_of_live cx h hd hlive nofun).2, ← (incoming_of_live cx h hd hlive nofun).1]
    exact (Except.ok.inj hdigest).symm
  have hhash := hne
  rw [hstored, hincoming] at hhash
  obtain ⟨sb, hsb, hsbkey⟩ := h.sender_base
  obtain ⟨rb, hrb, hrbkey⟩ := h.receiver_base
  rw [hincoming] at hsbkey hrbkey
  rcases dir with _ | _
  · obtain ⟨rfl, rfl⟩ : b = t.sender ∧ a = t.receiver := Prod.ext_iff.mp hends
    exact ⟨one_more_push cx rfl hreceiver rfl hsender hinc hrb hrbkey hhash,
      one_more_push cx rfl hreceiver rfl hsender hinc hsb hsbkey hhash⟩
  · obtain ⟨rfl, rfl⟩ : a = t.sender ∧ b = t.receiver := Prod.ext_iff.mp hends
    exact ⟨one_more_push cx rfl hreceiver rfl hsender hinc hsb hsbkey hhash,
      one_more_push cx rfl hreceiver rfl hsender hinc hrb hrbkey hhash⟩

/-! ## Which items converge -/

/-- An item that lands converges. -/
theorem converges_of_lands (hit : it ∈ plan_for cx l r)
    (hland : it.kind = .template → validate_simple_name cx it.name = .ok () →
      TemplateLands cx (ends l r it.direction).1 (ends l r it.direction).2 it.name)
    (hglobal : it.kind = .global → it.deleted = false → safe_global_rel it.name = .ok () →
      GlobalLands (ends l r it.direction).2 it.name) :
    Converges cx l r it := by
  intro now out hout
  obtain ⟨t, ht, hstored, hincoming, hends⟩ := sync_item_ok cx hout
  obtain ⟨d, hd, hdel, _, hplan⟩ := sender_of_plan cx hit
  rw [← hstored, ← hincoming]
  have hsettles : Settled cx t.sender t.receiver it.kind it.name →
      Settled cx out.here out.there it.kind it.name := by
    intro h
    rw [← settled_ends cx (d := it.direction), hends]
    exact h
  rcases hd' : d.deleted with _ | _
  · rw [hdel, hd'] at ht
    obtain ⟨c, digest, hlive⟩ := transfer_live cx ht
    have hland' : it.kind = .template →
        TemplateLands cx (ends l r it.direction).1 (ends l r it.direction).2 it.name := by
      intro hk
      refine hland hk ?_
      have hread := hlive.read
      rw [hk] at hread
      exact (read_template_ok cx hread).1
    -- a global file that could be written lands behind no link
    have hlink : it.kind = .global → (ends l r it.direction).2.disk.link it.name = none := by
      intro hk
      have hread := hlive.read
      rw [hk] at hread
      obtain ⟨_, hsafe, _⟩ := bind_ok hread
      refine (hglobal hk (hdel.trans hd') hsafe).resolve_right ?_
      rw [(hlive.written hk).1]
      exact Bool.false_ne_true
    refine ⟨fun heq => hsettles (settled_of_live cx hlive hd hd' hland' hlink heq), ?_⟩
    intro hne
    obtain ⟨hkind, hname⟩ := settings_of_ne cx hlive hd hd' hland' hne
    have hincoming := (incoming_of_live cx hlive hd hd' hland').2
    rw [hkind, hname] at hlive hd ⊢
    exact pushes_of_settings cx hlive hd hd' hne hends
  · rw [hdel, hd'] at ht
    obtain ⟨heq, hsettled⟩ := settled_of_deleted cx ht hplan hd hd'
    exact ⟨fun _ => hsettles hsettled, fun hne => absurd heq hne⟩

/-! ## A template that does not land -/

/-- Which templates are shared depends on the project files alone. -/
theorem referenced_of_projects {a b a' b' : Machine V B}
    (ha : a'.disk.projects = a.disk.projects) (hb : b'.disk.projects = b.disk.projects)
    (h : name ∈ referenced_templates (local_digest_map cx a).1 (local_digest_map cx b).1) :
    name ∈ referenced_templates (local_digest_map cx a').1 (local_digest_map cx b').1 := by
  have hmem : ∀ (m : Machine V B) (n : String), n ∈ (local_digest_map cx m).1.projects ↔
      n ∈ m.disk.projects.filterMap (item_digest cx .project) := by
    intro m n
    simp [local_digest_map, reconcile_and_attach, attach, Disk.read]
  have hextends : ∀ m : Machine V B, (local_digest_map cx m).1.project_extends
      = m.disk.projects.filterMap fun name s =>
        (item_digest cx .project name s).map fun _ => cx.extends_of s.content := by
    intro m
    rfl
  rw [mem_referenced_templates] at h ⊢
  simp only [hmem, hextends] at h ⊢
  rw [ha, hb]
  exact h

/-- A unit that may cross and that two machines advertise differently is planned. -/
theorem not_settled_of_apart {name x y : String}
    (hplan : Planned (local_digest_map cx a).1 (local_digest_map cx b).1 kind name)
    (ha : advertised cx a kind name = some x) (hb : advertised cx b kind name = some y)
    (hne : x ≠ y) : ¬ Settled cx a b kind name := by
  intro hsettled
  obtain ⟨l, hl, rfl⟩ := map_eq_some_iff.mp ha
  obtain ⟨r, hr, rfl⟩ := map_eq_some_iff.mp hb
  obtain ⟨it, hit⟩ : ∃ it, resolve_pair kind name (some l) (some r)
      ((local_digest_map cx a).2.peer_bases (local_digest_map cx b).1.device) false = some it :=
    ⟨_, by rw [resolve_pair_both, if_neg hne]⟩
  obtain ⟨hk, hn⟩ := resolve_pair_unit hit
  refine hsettled.1 it (mem_plan.mpr ?_) ⟨hk, hn⟩
  rw [hk, hn, hl, hr]
  exact ⟨hplan, hit⟩

section
variable {pull : Bool} {now : ℤ} {name : String} {sender receiver : Machine V B}
  {t : Transferred V B} {c : Content V B} {digest : String} {d : ItemDigest}

/-- A template that is sent from another file than it is listed by is hidden by its
`.yaml`. -/
theorem shadows_of_unlisted {disk : Disk V B} {files : TemplateFiles V B}
    (hfiles : disk.templates[name]? = some files)
    (hne : files.read.map (fun s => cx.sha256_hex s.content)
      ≠ files.listed.map fun s => cx.sha256_hex s.content) :
    disk.yaml_shadows .template name = true := by
  obtain ⟨yml, yaml, last⟩ := files
  rcases yml with _ | yml
  · exact absurd rfl hne
  · rcases yaml with _ | yaml
    · exact absurd rfl hne
    · rcases last with _ | _
      · exact absurd rfl hne
      · simp [Disk.yaml_shadows, hfiles]

/-- A listed template with a plain name crosses. -/
theorem template_crosses (receiver : Machine V B) (pull : Bool) (now : ℤ) {s : Stored V B}
    (hname : validate_simple_name cx name = .ok ())
    (hlisted : sender.disk.file .template name = some s) :
    ∃ t, transfer cx pull now .template name false sender receiver = .ok t := by
  obtain ⟨files, hfiles, hlist⟩ := bind_eq_some_iff.mp hlisted
  obtain ⟨s', hs'⟩ : ∃ s', files.read = some s' := by
    obtain ⟨yml, yaml, last⟩ := files
    rcases yml with _ | yml
    · exact ⟨s, hlist⟩
    · exact ⟨yml, rfl⟩
  have hread : read_item cx sender.disk .template name = .ok s'.content := by
    simp only [read_item, hname, hfiles, bind_some, hs']
  unfold transfer
  simp only [Bool.false_eq_true, if_false, hread, apply_item, apply_content, apply_template, hname]
  exact ⟨_, rfl⟩

variable (h : LiveTransfer cx pull now .template name sender receiver t c digest)
include h

theorem transfer_template_projects :
    t.sender.disk.projects = sender.disk.projects ∧
      t.receiver.disk.projects = receiver.disk.projects := by
  rw [h.sender_disk, h.receiver_disk]
  exact ⟨rfl, rfl⟩

/-- What a template that does not land leaves: the sender advertises what it did, and
the receiver something else. -/
theorem apart_of_not_lands
    (hd : (local_digest_map cx sender).1.get .template name = some d) (hlive : d.deleted = false)
    (hbefore : advertised cx receiver .template name ≠ some d.hash)
    (hnot : ¬ TemplateLands cx sender receiver name) :
    advertised cx t.sender .template name = some d.hash ∧
      ∃ x, advertised cx t.receiver .template name = some x ∧ x ≠ d.hash := by
  refine ⟨advertised_sender cx h hd hlive, ?_⟩
  rw [advertised_receiver cx h nofun]
  by_cases hshadow : receiver.disk.yaml_shadows .template name = true
  · rw [if_pos hshadow]
    obtain ⟨_, s, hs⟩ := yaml_shadows_file hshadow
    obtain ⟨y, hy⟩ : ∃ y, advertised cx receiver .template name = some y := by
      obtain ⟨d', hd', _⟩ := item_digest_of_ok cx .template name (s := s) rfl
      exact ⟨d'.hash, advertised_of_file cx (by rw [read_get, hs, bind_some, hd'])⟩
    refine ⟨y, hy, ?_⟩
    rintro rfl
    exact hbefore hy
  · rw [if_neg hshadow]
    refine ⟨t.stored, rfl, ?_⟩
    intro hstored
    refine hnot ⟨?_, by simpa using hshadow⟩
    intro files hfiles
    -- the file that was sent has the digest of the listed one
    obtain ⟨_, files', s', hfiles', hs', rfl⟩ := read_template_ok cx h.read
    obtain rfl : files = files' := some.inj (hfiles.symm.trans hfiles')
    obtain ⟨d', hd', hhash⟩ := file_of_live cx hd hlive
    rw [read_get] at hd'
    obtain ⟨s, hs, hdigest⟩ := bind_eq_some_iff.mp hd'
    obtain ⟨files', hfiles'', hlisted⟩ := bind_eq_some_iff.mp hs
    obtain rfl : files = files' := some.inj (hfiles.symm.trans hfiles'')
    have hsha : cx.sha256_hex s.content = d'.hash := Except.ok.inj (item_digest_live cx hdigest).1
    have hsent : cx.sha256_hex s'.content = t.stored := Except.ok.inj h.stored_ok
    rw [hs', hlisted, map_some, map_some, hsha, hsent, hstored, hhash]

omit h in
/-- A template is never listed as deleted. -/
theorem template_live {m : Machine V B}
    (h : (local_digest_map cx m).1.get .template name = some d) : d.deleted = false := by
  rcases hdel : d.deleted with _ | _
  · rfl
  · cases (gone_of_deleted cx h hdel).2.1

theorem shadows_of_ne
    (hd : (local_digest_map cx sender).1.get .template name = some d) (hlive : d.deleted = false)
    (hne : t.stored ≠ t.incoming) : sender.disk.yaml_shadows .template name = true := by
  by_contra hshadow
  obtain ⟨d', hd', hhash⟩ := file_of_live cx hd hlive
  have hsent := sent_digest cx h.read hd' fun _ files hfiles => by
    by_contra hunlisted
    exact hshadow (shadows_of_unlisted cx hfiles hunlisted)
  have hdigest : digest = d.hash := by
    rw [h.digest_ok] at hsent
    rw [Except.ok.inj hsent, hhash]
  have hstored : t.stored = digest := by
    have hsame := h.stored_ok
    rw [landed_digest cx receiver.disk c (by simp), h.digest_ok] at hsame
    exact (Except.ok.inj hsame).symm
  refine hne ?_
  rw [hstored, h.incoming_eq, hd, hdigest]
  rcases pull with _ | _ <;> rfl

end

/-- A shared template that does not land is planned again and again. -/
theorem not_converges_of_template
    (hit : it ∈ plan_for cx l r) (hk : it.kind = .template)
    (hname : validate_simple_name cx it.name = .ok ())
    (hnot : ¬ TemplateLands cx (ends l r it.direction).1 (ends l r it.direction).2 it.name) :
    ¬ Converges cx l r it := by
  intro hconv
  obtain ⟨d, hd, hdel, hbefore, hplan⟩ := sender_of_plan cx hit
  rw [hk] at hd hbefore hplan
  have hlive := template_live cx hd
  rw [ItemDigest.content_key, hlive] at hbefore
  -- the item is carried out
  obtain ⟨d', hd', _⟩ := file_of_live cx hd hlive
  rw [read_get] at hd'
  obtain ⟨s, hs, _⟩ := bind_eq_some_iff.mp hd'
  obtain ⟨t, ht⟩ := template_crosses cx (ends l r it.direction).2
    (it.direction = .toLocal) 0 hname hs
  obtain ⟨out, hout, hstored, hincoming, hends⟩ : ∃ out, sync_item cx 0 l r it = .ok out ∧
      t.stored = out.stored ∧ t.incoming = out.incoming ∧
      ends out.here out.there it.direction = (t.sender, t.receiver) := by
    refine sync_item_of_transfer cx ?_
    rw [hk, hdel, hlive]
    exact ht
  obtain ⟨c, digest, h⟩ := transfer_live cx ht
  obtain ⟨hsender, x, hx, hne⟩ := apart_of_not_lands cx h hd hlive hbefore hnot
  obtain ⟨hprojects, hprojects'⟩ := transfer_template_projects cx h
  have href : Planned (local_digest_map cx t.sender).1 (local_digest_map cx t.receiver).1
      .template it.name := referenced_of_projects cx hprojects hprojects' hplan
  obtain ⟨hsettles, hpushes⟩ := hconv 0 out hout
  rw [hk] at hsettles hpushes
  by_cases heq : out.stored = out.incoming
  · have hsettled := hsettles heq
    rw [← settled_ends cx (d := it.direction), hends] at hsettled
    exact not_settled_of_apart cx href hsender hx hne.symm hsettled
  -- what was stored is not what was advertised, so the sender's `.yaml` hides its `.yml`
  · obtain ⟨it', ⟨_, hk', hn'⟩, _, hdir', _, hdel', hpush⟩ := (hpushes heq).1
    obtain ⟨out', hout', hsettled⟩ := hpush 0
    obtain ⟨t', ht', _, _, hends'⟩ := sync_item_ok cx hout'
    rw [hk', hn', hdel', hdir', ends_flip, hends] at ht'
    obtain ⟨c', digest', h'⟩ := transfer_live cx ht'
    have hshadow := shadows_of_ne cx h hd hlive (by rwa [hstored, hincoming])
    rw [← h.sender_disk] at hshadow
    have hreceiver := advertised_receiver cx h' (by rintro ⟨⟩)
    rw [if_pos hshadow, hsender] at hreceiver
    obtain ⟨d₂, hd₂, rfl⟩ := map_eq_some_iff.mp hx
    have hlive₂ := template_live cx hd₂
    rw [ItemDigest.content_key, hlive₂] at hne
    have hsender' := advertised_sender cx h' hd₂ hlive₂
    obtain ⟨hprojects₂, hprojects₂'⟩ := transfer_template_projects cx h'
    have href' : Planned (local_digest_map cx t'.sender).1 (local_digest_map cx t'.receiver).1
        .template it.name :=
      referenced_of_projects cx hprojects₂ hprojects₂' (planned_comm.mp href)
    rw [← settled_ends cx (d := it.direction.flip), ← hdir', hends'] at hsettled
    exact not_settled_of_apart cx href' hsender' hreceiver hne hsettled

/-! ## A global file over a link -/

theorem deletable_of_link {disk : Disk V B} (h : disk.link name ≠ none) :
    is_deletable_global name = true := by
  by_contra hnot
  exact h (if_neg hnot)

/-- A listed file below a synced directory crosses, unless the receiver's link leads nowhere. -/
theorem global_crosses (pull : Bool) (now : ℤ) {sender receiver : Machine V B} {s : Stored V B}
    (hsafe : safe_global_rel name = .ok ()) (hdeletable : is_deletable_global name = true)
    (hlisted : sender.disk.file .global name = some s)
    (hdangles : receiver.disk.dangles name = false) :
    ∃ t, transfer cx pull now .global name false sender receiver = .ok t := by
  have hread : read_item cx sender.disk .global name = .ok s.content := by
    simp only [read_item, hsafe, Except.bind, read_file, global_file_eq hlisted]
  have hsettings : ¬ name = "settings.json" := by
    rintro rfl
    exact absurd hdeletable (by decide)
  have htelegram : ¬ name = TELEGRAM_FILE := by
    rintro rfl
    exact absurd hdeletable (by decide)
  unfold transfer
  simp only [Bool.false_eq_true, if_false, hread, apply_item, apply_content, apply_global,
    portable_digest, global_digest, if_neg hsettings, if_neg htelegram, hsafe, hdangles]
  exact ⟨_, rfl⟩

/-- What is written over a link the next inventory misses, and takes for deleted. -/
theorem advertised_over_link {pull : Bool} {t : Transferred V B} {c : Content V B}
    {digest : String} {sender receiver : Machine V B} {now : ℤ}
    (h : LiveTransfer cx pull now .global name sender receiver t c digest)
    (hlink : receiver.disk.link name ≠ none) :
    advertised cx t.receiver .global name = some TOMBSTONE := by
  have hdeletable := deletable_of_link hlink
  obtain ⟨e, he⟩ := h.receiver_entry
  have hgone : (t.receiver.disk.read cx).get .global name = none := by
    rw [read_get, h.receiver_disk, Disk.file, Disk.global_file, write_link,
      if_pos (ne_none_iff_isSome.mp hlink), bind_none]
  refine advertised_of_gone cx hgone hdeletable he (Or.inr ?_)
  rw [tombstones_for, tombstone_eligible, unit_of_item_key, any_some, hdeletable, Bool.true_or]

/-- A file that the receiver has over a link is planned again. -/
theorem not_converges_of_link (hit : it ∈ plan_for cx l r) (hk : it.kind = .global)
    (hdel : it.deleted = false) (hsafe : safe_global_rel it.name = .ok ())
    (hnot : ¬ GlobalLands (ends l r it.direction).2 it.name) : ¬ Converges cx l r it := by
  intro hconv
  obtain ⟨hlink, hdangles⟩ := not_or.mp hnot
  have hdeletable := deletable_of_link hlink
  rw [Bool.not_eq_true] at hdangles
  obtain ⟨d, hd, hdel', _, hplan⟩ := sender_of_plan cx hit
  rw [hk] at hd hplan
  have hlive : d.deleted = false := hdel'.symm.trans hdel
  obtain ⟨d', hd', hhash⟩ := file_of_live cx hd hlive
  rw [read_get] at hd'
  obtain ⟨s, hs, hdigest⟩ := bind_eq_some_iff.mp hd'
  obtain ⟨t, ht⟩ := global_crosses cx (it.direction = .toLocal) 0 hsafe hdeletable hs hdangles
  obtain ⟨c, digest, h⟩ := transfer_live cx ht
  obtain ⟨out, hout, hstored, hincoming, hends⟩ : ∃ out, sync_item cx 0 l r it = .ok out ∧
      t.stored = out.stored ∧ t.incoming = out.incoming ∧
      ends out.here out.there it.direction = (t.sender, t.receiver) := by
    refine sync_item_of_transfer cx ?_
    rw [hk, hdel]
    exact ht
  have hsettings : it.name ≠ "settings.json" := by
    intro hname
    rw [hname] at hdeletable
    exact absurd hdeletable (by decide)
  -- it is stored as it came, so the claim would have it settled
  have hsame : t.stored = t.incoming := by
    by_contra hne
    exact hsettings (settings_of_ne cx h hd hlive nofun hne).2
  have hsettled := (hconv 0 out hout).1 (by rw [← hstored, ← hincoming, hsame])
  rw [hk, ← settled_ends cx (d := it.direction), hends] at hsettled
  have hplan' : Planned (local_digest_map cx t.sender).1 (local_digest_map cx t.receiver).1
      .global it.name := by
    have hskills := hplan.2
    rw [skills_isSome, skills_isSome] at hskills
    refine ⟨hplan.1, ?_⟩
    rw [skills_isSome, skills_isSome, h.sender_disk, h.receiver_disk]
    exact hskills
  refine not_settled_of_apart cx hplan' (advertised_sender cx h hd hlive)
    (advertised_over_link cx h hlink) ?_ hsettled
  have hhex : global_digest cx it.name s.content = .ok d'.hash := (item_digest_live cx hdigest).1
  rw [global_digest, if_neg hsettings] at hhex
  rw [← hhash, ← Except.ok.inj hhex]
  exact cx.hex_ne s.content

/-- Every item of every plan converges, except a template that does not land and a file
that goes over a link. -/
theorem converges_iff {l r : Machine V B} {it : SyncItem} (hit : it ∈ plan_for cx l r) :
    Converges cx l r it ↔
      (it.kind = .template → validate_simple_name cx it.name = .ok () →
        TemplateLands cx (ends l r it.direction).1 (ends l r it.direction).2 it.name) ∧
      (it.kind = .global → it.deleted = false → safe_global_rel it.name = .ok () →
        GlobalLands (ends l r it.direction).2 it.name) := by
  constructor
  · intro h
    refine ⟨fun hk hname => ?_, fun hk hdel hsafe => ?_⟩
    · by_contra hnot
      exact not_converges_of_template cx hit hk hname hnot h
    · by_contra hnot
      exact not_converges_of_link cx hit hk hdel hsafe hnot h
  · rintro ⟨htemplate, hglobal⟩
    exact converges_of_lands cx hit htemplate hglobal

end

/-! ## Two machines that share a template -/

/-- A codec that reads a file as the text in it. -/
def text_codec : Codec String String :=
  { sha256_hex := fun c => match c with
      | .bytes b => "#" ++ b
      | _ => ""
    hex_ne := by
      have hempty : ("" : String) ≠ TOMBSTONE := by decide
      rintro (map | v | b) h
      · exact hempty h
      · exact hempty h
      · have hlist := congrArg String.toList h
        rw [String.toList_append] at hlist
        cases hlist
    wire_digest := fun _ => ""
    hash_object := fun l => String.join (l.map fun p => p.1 ++ p.2)
    hash_value := id
    extends_of := fun _ => ["t"]
    parse_error := fun _ => ""
    not_found := ""
    debug := id
    validate_name := fun _ => .ok ()
    skill_check := fun _ _ => .ok ()
    adopt := fun _ => .ok () }

/-- A machine with one project, which extends the template `t`. -/
def one_template (device : String) (files : TemplateFiles String String) :
    Machine String String :=
  { disk :=
      { projects := {("p", ⟨.mapping {("name", "p")}, 1⟩)}
        globals := ∅
        links := ∅
        templates := {("t", files)}
        skills := none
        held_skills := []
        kept_repos := ∅
        kept_skills := ∅
        kept_held := [] }
    state := { device, items := ∅, peers := ∅ } }

/-- A template in its `.yml` on both machines, and changed on one. -/
theorem yml_template_converges :
    item .template "t" .toLocal 1 2 false false ∈ plan_for text_codec
        (one_template "a" ⟨some ⟨.bytes "old", 1⟩, none, false⟩)
        (one_template "b" ⟨some ⟨.bytes "new", 2⟩, none, false⟩) ∧
      Converges text_codec (one_template "a" ⟨some ⟨.bytes "old", 1⟩, none, false⟩)
        (one_template "b" ⟨some ⟨.bytes "new", 2⟩, none, false⟩)
        (item .template "t" .toLocal 1 2 false false) := by
  have hit : item .template "t" .toLocal 1 2 false false ∈ plan_for text_codec
      (one_template "a" ⟨some ⟨.bytes "old", 1⟩, none, false⟩)
      (one_template "b" ⟨some ⟨.bytes "new", 2⟩, none, false⟩) := by decide +kernel
  refine ⟨hit, (converges_iff text_codec hit).mpr ⟨?_, nofun⟩⟩
  intro _ _
  refine ⟨?_, by decide⟩
  intro files hfiles
  obtain rfl : (⟨some ⟨.bytes "new", 2⟩, none, false⟩ : TemplateFiles String String) = files :=
    some.inj hfiles
  rfl

/-- A template this machine keeps in a `.yaml`: the new copy goes to a `.yml` beside it,
the inventory goes on describing the `.yaml`, and the two machines never agree. -/
theorem yaml_template_never_settles :
    item .template "t" .toLocal 1 2 false false ∈ plan_for text_codec
        (one_template "a" ⟨none, some ⟨.bytes "old", 1⟩, true⟩)
        (one_template "b" ⟨some ⟨.bytes "new", 2⟩, none, false⟩) ∧
      ¬ Converges text_codec (one_template "a" ⟨none, some ⟨.bytes "old", 1⟩, true⟩)
        (one_template "b" ⟨some ⟨.bytes "new", 2⟩, none, false⟩)
        (item .template "t" .toLocal 1 2 false false) := by
  have hit : item .template "t" .toLocal 1 2 false false ∈ plan_for text_codec
      (one_template "a" ⟨none, some ⟨.bytes "old", 1⟩, true⟩)
      (one_template "b" ⟨some ⟨.bytes "new", 2⟩, none, false⟩) := by decide +kernel
  refine ⟨hit, not_converges_of_template text_codec hit rfl (by decide +kernel) ?_⟩
  rintro ⟨_, hshadow⟩
  revert hshadow
  decide

end Lpm.Sync
