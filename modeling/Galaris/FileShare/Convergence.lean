import Galaris.Base.Results
import Galaris.FileShare.Catalogue
import Mathlib.Data.List.Nodup

/-! The catalogue converges while its calls are sound.

The identities and the keys of the rows are distinct, and a row that is present has the key of its URI
(`Inv`): no call violates the constraint. In runs without moves every deletion has left a tombstone and
every description a row, unless a deletion covers it (`Converges`). -/
namespace Galaris.FileShare.Catalogue

open Percent Transition

/-! ### Paths -/

theorem trimmed_isPrefix (uri : Text) : trimmed uri <+: uri := by
  have hsuffix := List.dropWhile_suffix (· == '/') (l := uri.reverse)
  exact List.reverse_suffix.mp (by rwa [trimmed, List.reverse_reverse])

theorem trimmed_last (uri : Text) : (trimmed uri).getLast? ≠ some '/' := by
  intro hlast
  rw [trimmed, List.getLast?_reverse] at hlast
  have hnot := List.head?_dropWhile_not (· == '/') uri.reverse
  rw [hlast] at hnot
  exact absurd hnot (by decide)

/-- A URI is what is left of it without the slashes at its end, and these. -/
theorem eq_trimmed (uri : Text) : ∃ slashes, uri = trimmed uri ++ slashes ∧ ∀ c ∈ slashes, c = '/' := by
  have hsplit := congrArg List.reverse (List.takeWhile_append_dropWhile (p := (· == '/')) (l := uri.reverse))
  rw [List.reverse_append, List.reverse_reverse] at hsplit
  refine ⟨(uri.reverse.takeWhile (· == '/')).reverse, hsplit.symm, fun c hc => ?_⟩
  have hall := List.all_eq_true.mp (List.all_takeWhile (p := (· == '/')) (l := uri.reverse)) c (List.mem_reverse.mp hc)
  exact eq_of_beq hall

/-- A URI covers itself and what is below it. -/
theorem covers_iff {uri other : Text} : covers uri other = true ↔ other = uri ∨ directory uri <+: other := by
  unfold covers
  rw [Bool.or_eq_true, beq_iff_eq, List.isPrefixOf_iff_prefix]

theorem covers_refl (uri : Text) : covers uri uri = true := covers_iff.mpr (.inl rfl)

/-- What is below a path is below the paths above it. -/
theorem covers_trans {a b c : Text} (h : covers a b = true) (k : covers b c = true) : covers a c = true := by
  obtain rfl | h := covers_iff.mp h
  · exact k
  obtain rfl | k := covers_iff.mp k
  · exact covers_iff.mpr (.inr h)
  refine covers_iff.mpr (.inr (List.IsPrefix.trans ?_ k))
  have htrimmed : trimmed a <+: b := (List.prefix_append _ _).trans h
  obtain hlt | hle := Nat.lt_or_ge (trimmed b).length (directory a).length
  case inr => exact (List.prefix_of_prefix_length_le h (trimmed_isPrefix b) hle).trans (List.prefix_append _ _)
  case inl =>
    -- Then only slashes are between the two paths, and neither ends with one.
    have hle : (trimmed b).length ≤ (trimmed a).length := by
      rw [directory, List.length_append, List.length_singleton] at hlt
      omega
    obtain ⟨more, hmore⟩ := List.prefix_of_prefix_length_le (trimmed_isPrefix b) htrimmed hle
    obtain ⟨slashes, hb, hslashes⟩ := eq_trimmed b
    have hstarts : more <+: slashes := by
      rw [← hmore] at htrimmed
      conv at htrimmed => rhs; rw [hb]
      exact (List.prefix_append_right_inj _).mp htrimmed
    cases hlast : more.getLast? with
    | none =>
      rw [List.getLast?_eq_none_iff.mp hlast, List.append_nil] at hmore
      have hsame : directory b = directory a := by rw [directory, directory, hmore]
      exact hsame ▸ List.prefix_rfl
    | some c =>
      have hc : c = '/' := hslashes c (hstarts.subset (List.mem_of_getLast? hlast))
      have hends : (trimmed a).getLast? = some '/' := by
        rw [← hmore, List.getLast?_append, hlast, hc]
        rfl
      exact absurd hends (trimmed_last a)

/-! ### Rows -/

/-- The rows of a binding: identities and keys are distinct, and a key is that of the URI or is retained. -/
structure Inv (c : State) : Prop where
  ids : (c.entries.map Entry.id).Nodup
  fresh : ∀ entry ∈ c.entries, entry.id < c.next
  keys : (c.entries.map Entry.key).Nodup
  keyed : ∀ entry ∈ c.entries, entry.key = .uri entry.uri ∨ entry.key = .retained entry.id ∧ entry.present = false

namespace Inv

variable {c c' : State}

/-- A row is known by its identifier. -/
theorem same_id (h : Inv c) {a b : Entry} (ha : a ∈ c.entries) (hb : b ∈ c.entries) (heq : a.id = b.id) : a = b :=
  List.inj_on_of_nodup_map h.ids ha hb heq

/-- A row is known by its key. -/
theorem same_key (h : Inv c) {a b : Entry} (ha : a ∈ c.entries) (hb : b ∈ c.entries) (heq : a.key = b.key) : a = b :=
  List.inj_on_of_nodup_map h.keys ha hb heq

theorem live_key (h : Inv c) {a : Entry} (ha : a ∈ c.entries) (hlive : a.present = true) : a.key = .uri a.uri := by
  obtain hkey | ⟨-, hgone⟩ := h.keyed a ha
  · exact hkey
  · exact absurd (hgone.symm.trans hlive) Bool.false_ne_true

/-- One row is present for a URI. -/
theorem live_unique (h : Inv c) {a b : Entry} (ha : a ∈ c.entries) (hb : b ∈ c.entries) (hpresent : a.present = true)
    (hpresent' : b.present = true) (huri : a.uri = b.uri) : a = b :=
  h.same_key ha hb (by rw [h.live_key ha hpresent, h.live_key hb hpresent', huri])

/-- The row that is found has the key. -/
theorem find_spec {key : Key} {entry : Entry} (h : c.find key = some entry) : entry ∈ c.entries ∧ entry.key = key := by
  unfold State.find at h
  exact ⟨List.mem_of_find?_eq_some h, by simpa using List.find?_some h⟩

/-- The row that is found has the URI that its key names. -/
theorem find_uri (h : Inv c) {uri : Text} {entry : Entry}
    (hfound : c.find (.uri uri) = some entry) : entry ∈ c.entries ∧ entry.uri = uri := by
  obtain ⟨hmem, hkey⟩ := find_spec hfound
  obtain hkey' | ⟨hkey', -⟩ := h.keyed entry hmem <;> rw [hkey] at hkey' <;> cases hkey'
  exact ⟨hmem, rfl⟩

theorem find_none {key : Key} (h : c.find key = none) : ∀ entry ∈ c.entries, entry.key ≠ key := by
  unfold State.find at h
  simpa using h

/-- A live row is found by its URI. -/
theorem find_live (h : Inv c) {entry : Entry} (hmem : entry ∈ c.entries)
    (hlive : entry.present = true) : c.find (.uri entry.uri) = some entry := by
  cases hfound : c.find (.uri entry.uri) with
  | none => exact absurd (h.live_key hmem hlive) (find_none hfound entry hmem)
  | some other =>
    obtain ⟨hother, hkey⟩ := find_spec hfound
    rw [h.same_key hother hmem (hkey.trans (h.live_key hmem hlive).symm)]

/-- Rows that keep their identities and keys, and do not reappear with a key that is retained. -/
theorem map (h : Inv c) {f : Entry → Entry} (hid : ∀ entry ∈ c.entries, (f entry).id = entry.id)
    (hkeys : (c.entries.map fun entry => (f entry).key).Nodup)
    (hkeyed : ∀ entry ∈ c.entries, (f entry).key = .uri (f entry).uri ∨
      (f entry).key = .retained entry.id ∧ (f entry).present = false) :
    Inv {c with entries := c.entries.map f} := by
  have hids : (c.entries.map f).map Entry.id = c.entries.map Entry.id := by
    rw [List.map_map]
    exact List.map_congr_left hid
  refine ⟨hids ▸ h.ids, fun entry hentry => ?_, ?_, fun entry hentry => ?_⟩
  · obtain ⟨row, hrow, rfl⟩ := List.mem_map.mp hentry
    rw [hid row hrow]
    exact h.fresh row hrow
  · rw [List.map_map]
    exact hkeys
  · obtain ⟨row, hrow, rfl⟩ := List.mem_map.mp hentry
    rw [hid row hrow]
    exact hkeyed row hrow

/-- Rows that keep their identities, keys and URIs. -/
theorem map_same (h : Inv c) {f : Entry → Entry}
    (hsame : ∀ entry ∈ c.entries, (f entry).id = entry.id ∧ (f entry).key = entry.key ∧
    (f entry).uri = entry.uri ∧ ((f entry).present = true → entry.present = true)) :
    Inv {c with entries := c.entries.map f} := by
  refine h.map (fun entry hentry => (hsame entry hentry).1) ?_ fun entry hentry => ?_
  · rw [List.map_congr_left fun entry hentry => (hsame entry hentry).2.1]
    exact h.keys
  · obtain ⟨-, hkey, huri, hpresent⟩ := hsame entry hentry
    rw [hkey, huri]
    refine (h.keyed entry hentry).imp_right fun ⟨hkey, hgone⟩ => ⟨hkey, ?_⟩
    cases hlive : (f entry).present with
    | false => rfl
    | true => exact absurd (hgone.symm.trans (hpresent hlive)) Bool.false_ne_true

/-- A row is inserted, with a key that is free. -/
theorem add (h : Inv c) (uri : Text) (key : Key) (generation : Nat) (descriptor : Descriptor)
    (present : Bool) (startedAt lastSeenAt : Nat)
    (hfree : ∀ entry ∈ c.entries, entry.key ≠ key)
    (hkeyed : key = .uri uri ∨ key = .retained c.next ∧ present = false) :
    c.add uri key generation descriptor present startedAt lastSeenAt =
        .ok ⟨c.entries ++ [⟨c.next, uri, key, generation, descriptor, "", present, startedAt,
          lastSeenAt⟩], c.next + 1⟩ ∧
      Inv ⟨c.entries ++ [⟨c.next, uri, key, generation, descriptor, "", present, startedAt,
          lastSeenAt⟩], c.next + 1⟩ := by
  constructor
  · unfold State.add
    rw [if_neg]
    rw [List.any_eq_true]
    rintro ⟨entry, hentry, hkey⟩
    exact hfree entry hentry (of_decide_eq_true hkey)
  · refine ⟨?_, fun entry hentry => ?_, ?_, fun entry hentry => ?_⟩
    · rw [List.map_append, List.nodup_append]
      refine ⟨h.ids, List.nodup_singleton _, fun id hid other hother heq => ?_⟩
      obtain ⟨row, hrow, rfl⟩ := List.mem_map.mp hid
      have hfresh := h.fresh row hrow
      rw [heq, List.mem_singleton.mp hother] at hfresh
      exact absurd hfresh (Nat.lt_irrefl _)
    · obtain hentry | hentry := List.mem_append.mp hentry
      · exact Nat.lt_succ_of_lt (h.fresh entry hentry)
      · rw [List.mem_singleton.mp hentry]
        exact Nat.lt_succ_self _
    · rw [List.map_append, List.nodup_append]
      refine ⟨h.keys, List.nodup_singleton _, fun other hother new hnew heq => ?_⟩
      obtain ⟨row, hrow, rfl⟩ := List.mem_map.mp hother
      exact hfree row hrow (heq.trans (List.mem_singleton.mp hnew))
    · obtain hentry | hentry := List.mem_append.mp hentry
      · exact h.keyed entry hentry
      · rw [List.mem_singleton.mp hentry]
        exact hkeyed

/-- The rows after one has been updated. -/
theorem mem_update {id : Id} {f : Entry → Entry} {entry : Entry} (h : entry ∈ (c.update id f).entries) :
    (∃ row ∈ c.entries, row.id = id ∧ entry = f row) ∨ entry ∈ c.entries ∧ entry.id ≠ id := by
  obtain ⟨row, hrow, rfl⟩ := List.mem_map.mp h
  split
  case isTrue heq => exact .inl ⟨row, hrow, heq, rfl⟩
  case isFalse hne => exact .inr ⟨hrow, hne⟩

/-- A row is given a key that no other has. -/
theorem rekey (h : Inv c) {row : Entry} (hrow : row ∈ c.entries) (key : Key) (f : Entry → Entry)
    (hid : ∀ entry, (f entry).id = entry.id)
    (hfree : ∀ entry ∈ c.entries, entry.key ≠ key)
    (hkeyed : key = .uri (f row).uri ∨ key = .retained row.id ∧ (f row).present = false) :
    c.rekey row.id key f = .ok (c.update row.id fun entry => {f entry with key}) ∧
        Inv (c.update row.id fun entry => {f entry with key}) := by
  constructor
  · unfold State.rekey
    rw [if_neg]
    rw [List.any_eq_true]
    rintro ⟨entry, hentry, hkey⟩
    exact hfree entry hentry (of_decide_eq_true (Bool.and_eq_true_iff.mp hkey).2)
  · refine h.map (fun entry _ => ?_) ?_ fun entry hentry => ?_
    · split
      · exact hid entry
      · rfl
    · refine (List.nodup_map_iff_inj_on (List.Nodup.of_map _ h.ids)).mpr fun a ha b hb heq => ?_
      dsimp only at heq
      split at heq
      case isTrue haid =>
        split at heq
        case isTrue hbid => exact h.same_id ha hb (haid.trans hbid.symm)
        case isFalse => exact absurd heq.symm (hfree b hb)
      case isFalse =>
        split at heq
        case isTrue => exact absurd heq (hfree a ha)
        case isFalse => exact h.same_key ha hb heq
    · split
      case isTrue heq =>
        obtain rfl := h.same_id hentry hrow heq
        exact hkeyed
      case isFalse => exact h.keyed entry hentry

end Inv

/-! ### Descriptions -/

/-- What a key that is retained leaves of a row. -/
def SameRow (a b : Entry) : Prop :=
  b.id = a.id ∧ b.uri = a.uri ∧ b.present = a.present ∧ b.startedAt = a.startedAt ∧
    b.notes = a.notes ∧ b.lastSeenAt = a.lastSeenAt

theorem SameRow.refl (a : Entry) : SameRow a a := ⟨rfl, rfl, rfl, rfl, rfl, rfl⟩

/-- What the observation of a descriptor does. -/
inductive Described (c : State) (startedAt seenAt : Nat) (descriptor : Descriptor) : State → Prop
  | stale (late : c.stale startedAt descriptor.uri = true) : Described c startedAt seenAt descriptor c
  | known {entry : Entry} (mem : entry ∈ c.entries) (live : entry.present = true) (uri : entry.uri = descriptor.uri)
      (late : startedAt < entry.startedAt) : Described c startedAt seenAt descriptor c
  | seen {entry : Entry} (mem : entry ∈ c.entries) (live : entry.present = true) (uri : entry.uri = descriptor.uri)
      (le : entry.startedAt ≤ startedAt) (timely : c.stale startedAt descriptor.uri = false) :
    Described c startedAt seenAt descriptor
      (c.update entry.id fun entry => {entry with present := true, startedAt, lastSeenAt := seenAt, descriptor})
  | created {f : Entry → Entry} {generation : Nat}
    (gone : ∀ entry ∈ c.entries, entry.present = true → entry.uri ≠ descriptor.uri)
      (same : ∀ entry, SameRow entry (f entry)) (timely : c.stale startedAt descriptor.uri = false) :
    Described c startedAt seenAt descriptor ⟨c.entries.map f ++
      [⟨c.next, descriptor.uri, .uri descriptor.uri, generation, descriptor, "", true, startedAt, seenAt⟩], c.next + 1⟩

/-- A descriptor is recorded, and the catalogue stays in order. -/
theorem observeDescriptor_spec {c : State} (h : Inv c) (startedAt seenAt : Nat) (descriptor : Descriptor) :
    ∃ c', State.observeDescriptor startedAt seenAt c descriptor = .ok c' ∧ Inv c' ∧
    Described c startedAt seenAt descriptor c' := by
  unfold State.observeDescriptor
  split
  case isTrue hstale => exact ⟨c, rfl, h, .stale hstale⟩
  case isFalse htimely =>
    have htimely : c.stale startedAt descriptor.uri = false := Bool.not_eq_true _ ▸ htimely
    cases hfound : c.find (.uri descriptor.uri) with
    | none =>
      obtain ⟨hadded, hinv⟩ := h.add descriptor.uri
        (.uri descriptor.uri) 1 descriptor true startedAt seenAt (Inv.find_none hfound) (.inl rfl)
      refine ⟨_, hadded, hinv, ?_⟩
      have hcreated :=
          @Described.created c startedAt seenAt descriptor id 1 (fun entry hentry hlive huri =>
          Inv.find_none hfound entry hentry (huri ▸ h.live_key hentry hlive)) SameRow.refl htimely
      rwa [List.map_id] at hcreated
    | some entry =>
      obtain ⟨hmem, huri⟩ := h.find_uri hfound
      dsimp only
      split
      case isTrue hlate =>
        refine ⟨c, rfl, h, ?_⟩
        cases hlive : entry.present with
        | true => exact .known hmem hlive huri hlate
        | false =>
          -- The tombstone itself makes the observation stale.
          refine absurd (List.any_eq_true.mpr ⟨entry, hmem, ?_⟩) (Bool.not_eq_true _ ▸ htimely)
          rw [hlive, decide_eq_true hlate, huri, covers_refl]
          rfl
      case isFalse hle =>
        split
        case isTrue hlive =>
          refine ⟨_, rfl, h.map_same fun row hrow => ?_, .seen hmem hlive huri (Nat.le_of_not_lt hle) htimely⟩
          split
          case isTrue heq =>
            obtain rfl := h.same_id hrow hmem heq
            exact ⟨rfl, rfl, rfl, fun _ => hlive⟩
          case isFalse => exact ⟨rfl, rfl, rfl, fun hpresent => hpresent⟩
        case isFalse hgone =>
          have hgone : entry.present = false := Bool.not_eq_true _ ▸ hgone
          have hretained : ∀ row ∈ c.entries, row.key ≠ .retained entry.id := by
            intro row hrow hkey
            obtain hkey' | ⟨hkey', -⟩ := h.keyed row hrow
            · exact nomatch hkey.symm.trans hkey'
            · obtain rfl := h.same_id hrow hmem (Key.retained.inj (hkey'.symm.trans hkey))
              exact nomatch (Inv.find_spec hfound).2.symm.trans hkey
          obtain ⟨hrekeyed, hinv⟩ := h.rekey hmem (.retained entry.id) id (fun _ => rfl) hretained (.inr ⟨rfl, hgone⟩)
          have hfree :
              ∀ row ∈ (c.update entry.id fun row => {row with key := .retained entry.id}).entries,
              row.key ≠ .uri descriptor.uri := by
            intro row hrow hkey
            obtain ⟨other, -, -, rfl⟩ | ⟨hrow, hne⟩ := Inv.mem_update hrow
            · cases hkey
            · exact hne (congrArg Entry.id (h.same_key hrow hmem (hkey.trans (Inv.find_spec hfound).2.symm)))
          obtain ⟨hadded, hinv'⟩ := hinv.add descriptor.uri (.uri descriptor.uri)
            (entry.generation + 1) descriptor true startedAt seenAt
            hfree (.inl rfl)
          refine ⟨_, Results.bind_eq_ok.mpr ⟨_, hrekeyed, hadded⟩, hinv',
            .created (fun row hrow hlive huri' => ?_) (fun row => ?_) htimely⟩
          · have heq := h.same_key hrow hmem (by rw [h.live_key hrow hlive, huri', (Inv.find_spec hfound).2])
            rw [heq, hgone] at hlive
            cases hlive
          · split <;> exact SameRow.refl row

/-! ### Deletions -/

theorem deleted_of_covers {startedAt : Nat} {uri : Text} {entry : Entry}
    (hcovers : covers uri entry.uri = true) (hle : entry.startedAt ≤ startedAt) :
    State.deleted startedAt uri entry = {entry with present := false, startedAt} := by
  unfold State.deleted
  rw [hcovers, decide_eq_true hle, Bool.and_self, if_pos rfl]

theorem deleted_of_not {startedAt : Nat} {uri : Text} {entry : Entry}
    (h : ¬ (covers uri entry.uri = true ∧ entry.startedAt ≤ startedAt)) :
    State.deleted startedAt uri entry = entry := by
  unfold State.deleted
  rw [if_neg]
  rwa [Bool.and_eq_true, decide_eq_true_eq]

theorem deleted_same (startedAt : Nat) (uri : Text) (entry : Entry) :
    (State.deleted startedAt uri entry).id = entry.id ∧
    (State.deleted startedAt uri entry).key = entry.key ∧ (State.deleted startedAt uri entry).uri = entry.uri ∧
      (State.deleted startedAt uri entry).notes = entry.notes ∧
      ((State.deleted startedAt uri entry).present = true → entry.present = true) := by
  by_cases h : covers uri entry.uri = true ∧ entry.startedAt ≤ startedAt
  · rw [deleted_of_covers h.1 h.2]
    exact ⟨rfl, rfl, rfl, rfl, nofun⟩
  · rw [deleted_of_not h]
    exact ⟨rfl, rfl, rfl, rfl, fun hpresent => hpresent⟩

/-- The tombstone of a URI that was not known. -/
def tombstone (id : Id) (startedAt : Nat) (uri : Text) : Entry :=
    ⟨id, uri, .uri uri, 1, State.noDescriptor, "", false, startedAt, startedAt⟩

/-- What a deletion leaves. -/
structure Deleted (c : State) (startedAt : Nat) (uri : Text) (c' : State) : Prop where
  rows : ∀ entry ∈ c.entries, State.deleted startedAt uri entry ∈ c'.entries
  only : ∀ entry ∈ c'.entries, (∃ row ∈ c.entries, entry = State.deleted startedAt uri row) ∨
    entry = tombstone c.next startedAt uri
  known : (∃ entry ∈ c.entries, entry.uri = uri) ∨ tombstone c.next startedAt uri ∈ c'.entries

/-- A deletion is recorded, and the catalogue stays in order. -/
theorem observeDeletion_spec {c : State} (h : Inv c) (startedAt : Nat) (uri : Text) :
    ∃ c', c.observeDeletion startedAt uri = .ok c' ∧ Inv c' ∧ Deleted c startedAt uri c' := by
  have hinv : Inv {c with entries := c.entries.map (State.deleted startedAt uri)} := by
    refine h.map_same fun entry _ => ?_
    obtain ⟨hid, hkey, huri, -, hpresent⟩ := deleted_same startedAt uri entry
    exact ⟨hid, hkey, huri, hpresent⟩
  unfold State.observeDeletion
  dsimp only
  split
  case isTrue hknown =>
    obtain ⟨entry, hentry, huri⟩ := List.any_eq_true.mp hknown
    exact ⟨_, rfl, hinv, fun entry hentry => List.mem_map_of_mem hentry, fun entry hentry => .inl (by
      obtain ⟨row, hrow, heq⟩ := List.mem_map.mp hentry
      exact ⟨row, hrow, heq.symm⟩), .inl ⟨entry, hentry, of_decide_eq_true huri⟩⟩
  case isFalse hunknown =>
    have hfree : ∀ entry ∈ c.entries.map (State.deleted startedAt uri), entry.key ≠ .uri uri := by
      intro entry hentry hkey
      obtain ⟨row, hrow, rfl⟩ := List.mem_map.mp hentry
      rw [(deleted_same startedAt uri row).2.1] at hkey
      obtain hkey' | ⟨hkey', -⟩ := h.keyed row hrow
      · exact hunknown (List.any_eq_true.mpr ⟨row, hrow, decide_eq_true (Key.uri.inj (hkey'.symm.trans hkey))⟩)
      · exact nomatch hkey'.symm.trans hkey
    obtain ⟨hadded, hinv'⟩ := hinv.add uri (.uri uri) 1 State.noDescriptor false startedAt startedAt hfree (.inl rfl)
    refine ⟨_, hadded, hinv', fun entry hentry =>
      List.mem_append_left _ (List.mem_map_of_mem hentry), fun entry hentry => ?_,
      .inr (List.mem_append_right _ (List.mem_singleton.mpr rfl))⟩
    obtain hentry | hentry := List.mem_append.mp hentry
    · obtain ⟨row, hrow, heq⟩ := List.mem_map.mp hentry
      exact .inl ⟨row, hrow, heq.symm⟩
    · exact .inr (List.mem_singleton.mp hentry)

/-! ### Moves -/

/-- A row that has moved. -/
def arrived (startedAt : Nat) (source : Entry) (uri : Text) (destination : Descriptor) (entry : Entry) : Entry :=
  {entry with
    uri := State.moved source uri destination entry, key := .uri (State.moved source uri destination entry), startedAt
    descriptor := {entry.descriptor with uri := State.moved source uri destination entry}}

/-- What the moves of rows leave. -/
structure Moved (c : State) (startedAt : Nat) (source : Entry) (uri : Text)
    (destination : Descriptor) (moving : List Entry) (c' : State) : Prop where
  stays : ∀ entry ∈ c.entries, (∀ row ∈ moving, row.id ≠ entry.id) → entry ∈ c'.entries
  arrives : ∀ entry ∈ moving, arrived startedAt source uri destination entry ∈ c'.entries
  only : ∀ entry ∈ c'.entries, entry ∈ c.entries ∨
    (∃ row ∈ moving, entry = arrived startedAt source uri destination row) ∨
    entry.present = false ∧ entry.startedAt = startedAt

/-- The move of one row is recorded, and the catalogue stays in order. -/
theorem moveEntry_spec {c : State} {source entry : Entry} (h : Inv c) (startedAt : Nat) {uri : Text}
    {destination : Descriptor}
    (hentry : entry ∈ c.entries) (hkey : entry.key = .uri entry.uri)
    (hfree : ∀ row ∈ c.entries, row.key ≠ .uri (State.moved source uri destination entry)) :
    ∃ c', State.moveEntry startedAt source uri destination c entry = .ok c' ∧ Inv c' ∧
    Moved c startedAt source uri destination [entry] c' ∧
      ∀ row ∈ c'.entries, (∃ other ∈ c.entries, other.key = row.key) ∨
      row.key = .uri (State.moved source uri destination entry) := by
  unfold State.moveEntry
  dsimp only
  generalize htarget : State.moved source uri destination entry = target at hfree ⊢
  obtain ⟨hrekeyed, hinv⟩ := h.rekey hentry (.uri target) (fun row =>
    {row with uri := target, startedAt, descriptor := {row.descriptor with uri := target}})
      (fun _ => rfl) hfree (.inl rfl)
  have hfreed : ∀ row ∈ (c.update entry.id fun row =>
      {row with uri := target, key := .uri target, startedAt, descriptor :=
      {row.descriptor with uri := target}}).entries, row.key ≠ entry.key := by
    intro row hrow hkey'
    obtain ⟨other, -, -, rfl⟩ | ⟨hrow, hne⟩ := Inv.mem_update hrow
    · exact hfree entry hentry hkey'.symm
    · exact hne (congrArg Entry.id (h.same_key hrow hentry hkey'))
  obtain ⟨hadded, hinv'⟩ := hinv.add entry.uri entry.key 1
    {entry.descriptor with uri := target} false startedAt startedAt hfreed
    (.inl hkey)
  refine ⟨_, Results.bind_eq_ok.mpr ⟨_, hrekeyed, hadded⟩, hinv',
    ⟨fun row hrow hother => ?_, fun row hrow => ?_, fun row hrow => ?_⟩, fun row hrow => ?_⟩
  · refine List.mem_append_left _ (List.mem_map.mpr ⟨row, hrow, if_neg ?_⟩)
    exact fun heq => hother entry (List.mem_singleton.mpr rfl) heq.symm
  · rw [List.mem_singleton.mp hrow]
    refine List.mem_append_left _ (List.mem_map.mpr ⟨entry, hentry, ?_⟩)
    rw [if_pos rfl, arrived, htarget]
  · obtain hrow | hrow := List.mem_append.mp hrow
    · obtain ⟨other, hother, hid, rfl⟩ | ⟨hrow, -⟩ := Inv.mem_update hrow
      · obtain rfl := h.same_id hother hentry hid
        refine .inr (.inl ⟨other, List.mem_singleton.mpr rfl, ?_⟩)
        rw [arrived, htarget]
      · exact .inl hrow
    · rw [List.mem_singleton.mp hrow]
      exact .inr (.inr ⟨rfl, rfl⟩)
  · obtain hrow | hrow := List.mem_append.mp hrow
    · obtain ⟨other, -, -, rfl⟩ | ⟨hrow, -⟩ := Inv.mem_update hrow
      · exact .inr rfl
      · exact .inl ⟨row, hrow, rfl⟩
    · rw [List.mem_singleton.mp hrow]
      exact .inl ⟨entry, hentry, rfl⟩

/-- The moves of several rows are recorded one after the other. -/
theorem moveEntries_spec (source : Entry) (startedAt : Nat) (uri : Text) (destination : Descriptor)
    {moving : List Entry} {c : State} (h : Inv c)
    (hmem : ∀ entry ∈ moving, entry ∈ c.entries ∧ entry.key = .uri entry.uri) (hids : (moving.map Entry.id).Nodup)
    (htargets : (moving.map (State.moved source uri destination)).Nodup)
    (hfree : ∀ entry ∈ moving, ∀ row ∈ c.entries, row.key ≠ .uri (State.moved source uri destination entry)) :
    ∃ c', moving.foldlM (State.moveEntry startedAt source uri destination) c = .ok c' ∧ Inv c' ∧
      Moved c startedAt source uri destination moving c' := by
  induction moving generalizing c with
  | nil =>
    exact ⟨c, rfl, h, fun entry hentry _ => hentry,
      fun entry hentry => absurd hentry List.not_mem_nil, fun entry hentry => .inl hentry⟩
  | cons first rest ih =>
    obtain ⟨hfirst, hrest⟩ := List.forall_mem_cons.mp hmem
    obtain ⟨hfreefirst, hfreerest⟩ := List.forall_mem_cons.mp hfree
    rw [List.map_cons, List.nodup_cons] at hids htargets
    obtain ⟨next, hnext, hinv, hmoved, hkeys⟩ := moveEntry_spec h startedAt hfirst.1 hfirst.2 hfreefirst
    have hother : ∀ entry ∈ rest, entry.id ≠ first.id :=
        fun entry hentry heq => hids.1 (List.mem_map.mpr ⟨entry, hentry, heq⟩)
    have hstays : ∀ entry ∈ rest, entry ∈ next.entries ∧ entry.key = .uri entry.uri := fun entry hentry =>
      ⟨hmoved.stays entry (hrest entry hentry).1 fun row hrow =>
        List.mem_singleton.mp hrow ▸ (hother entry hentry).symm, (hrest entry hentry).2⟩
    have hfreenext : ∀ entry ∈ rest, ∀ row ∈ next.entries,
        row.key ≠ .uri (State.moved source uri destination entry) := by
      intro entry hentry row hrow hkey
      obtain ⟨old, hold, hsame⟩ | hsame := hkeys row hrow
      · exact hfreerest entry hentry old hold (hsame.trans hkey)
      · exact htargets.1 (List.mem_map.mpr ⟨entry, hentry, Key.uri.inj (hkey.symm.trans hsame)⟩)
    obtain ⟨c', hc', hinv', hmoved'⟩ := ih hinv hstays hids.2 htargets.2 hfreenext
    refine ⟨c', ?_, hinv', fun entry hentry hnot => ?_, fun entry hentry => ?_, fun entry hentry => ?_⟩
    · rw [List.foldlM_cons]
      exact Results.bind_eq_ok.mpr ⟨next, hnext, hc'⟩
    · refine hmoved'.stays entry (hmoved.stays entry hentry fun row hrow => ?_) fun row hrow =>
        hnot row (List.mem_cons_of_mem _ hrow)
      exact List.mem_singleton.mp hrow ▸ hnot first List.mem_cons_self
    · obtain rfl | hentry := List.mem_cons.mp hentry
      · exact hmoved'.stays _ (hmoved.arrives _ (List.mem_singleton.mpr rfl)) fun row hrow => hother row hrow
      · exact hmoved'.arrives entry hentry
    · obtain hold | ⟨row, hrow, heq⟩ | hgone := hmoved'.only entry hentry
      · obtain hold | ⟨row, hrow, heq⟩ | hgone := hmoved.only entry hold
        · exact .inl hold
        · exact .inr (.inl ⟨row, List.mem_singleton.mp hrow ▸ List.mem_cons_self, heq⟩)
        · exact .inr (.inr hgone)
      · exact .inr (.inl ⟨row, List.mem_cons_of_mem _ hrow, heq⟩)
      · exact .inr (.inr hgone)

/-- The source of a move is a live row of the URI, with or without slash. -/
theorem source_spec {c : State} (h : Inv c) {uri : Text} {slash : Bool} {source : Entry}
    (hsource : c.source uri slash = some source) :
    source ∈ c.entries ∧ source.key = .uri source.uri ∧ (source.uri = uri ∨ source.uri = directory uri) := by
  have hfound : ∀ {other : Text} {entry : Entry}, c.find (.uri other) = some entry →
      entry ∈ c.entries ∧ entry.key = .uri entry.uri ∧ entry.uri = other := by
    intro other entry hfound
    obtain ⟨hmem, huri⟩ := h.find_uri hfound
    exact ⟨hmem, huri ▸ (Inv.find_spec hfound).2, huri⟩
  have hone : c.find (.uri uri) = some source ∨ c.find (.uri (directory uri)) = some source := by
    unfold State.source at hsource
    split at hsource
    case h_1 entry other hentry hother =>
      obtain rfl := Option.some.inj hsource
      split
      case isTrue => exact .inr hother
      case isFalse => exact .inl hentry
    case h_2 entry hentry _ =>
      obtain rfl := Option.some.inj hsource
      exact .inl hentry
    case h_3 => exact .inr hsource
  obtain hone | hone := hone
  · obtain ⟨hmem, hkey, huri⟩ := hfound hone
    exact ⟨hmem, hkey, .inl huri⟩
  · obtain ⟨hmem, hkey, huri⟩ := hfound hone
    exact ⟨hmem, hkey, .inr huri⟩

/-- What a move leaves: its source is gone, or it has moved with what is below it. -/
inductive MoveSpec (c : State) (startedAt : Nat) (uri : Text) (destination : Descriptor)
    (slash : Bool) (c' : State) : Prop
  | gone (deleted : Deleted c startedAt uri c') (lost : ∀ source, c.source uri slash = some source →
      startedAt < source.startedAt ∨ (c.find (.uri destination.uri)).isSome = true)
  | moved {source : Entry} (found : c.source uri slash = some source) (free : c.find (.uri destination.uri) = none)
      (timely : source.startedAt ≤ startedAt)
      (moved : Moved c startedAt source uri destination (source :: c.descendants source uri destination) c')

/-- Two URIs below one directory differ in what follows it. -/
theorem directory_drop {a b uri : Text} (ha : directory uri <+: a) (hb : directory uri <+: b)
    (heq : a.drop (directory uri).length = b.drop (directory uri).length) : a = b := by
  obtain ⟨more, rfl⟩ := ha
  obtain ⟨more', rfl⟩ := hb
  rw [List.drop_left, List.drop_left] at heq
  rw [heq]

/-- The move of all that is below a URI is recorded, and the catalogue stays in order. -/
theorem observeMove_spec {c : State} (h : Inv c) (startedAt : Nat) (uri : Text)
    (destination : Descriptor) (slash : Bool)
    (hsound : sound c (.move startedAt uri destination slash) = true) :
    ∃ c', c.observeMove startedAt uri destination slash = .ok c' ∧ Inv c' ∧
    MoveSpec c startedAt uri destination slash c' := by
  unfold State.observeMove
  have hgone : ∀ {result}, result = c.observeDeletion startedAt uri → (∀ source, c.source uri slash = some source →
      startedAt < source.startedAt ∨ (c.find (.uri destination.uri)).isSome = true) →
      ∃ c', result = .ok c' ∧ Inv c' ∧ MoveSpec c startedAt uri destination slash c' := by
    rintro result rfl hlost
    obtain ⟨c', hc', hinv, hdeleted⟩ := observeDeletion_spec h startedAt uri
    exact ⟨c', hc', hinv, .gone hdeleted hlost⟩
  cases hsource : c.source uri slash with
  | none => exact hgone rfl fun source hfound => nomatch hsource.symm.trans hfound
  | some source =>
    cases htarget : c.find (.uri destination.uri) with
    | some target => exact hgone rfl fun _ _ => .inr (htarget ▸ rfl)
    | none =>
      dsimp only
      split
      case isTrue hlate =>
        refine hgone rfl fun other hother => ?_
        obtain rfl := Option.some.inj (hsource.symm.trans hother)
        exact .inl hlate
      case isFalse htimely =>
        have hclears : clears c startedAt source uri destination = true := by
          have hmove := (Bool.and_eq_true_iff.mp hsound).2
          rw [hsource, htarget] at hmove
          exact (Bool.or_eq_true_iff.mp hmove).resolve_left fun hlate => htimely (of_decide_eq_true hlate)
        obtain ⟨hmem, hkey, -⟩ := source_spec h hsource
        have hbelow : ∀ entry ∈ c.descendants source uri destination, entry ∈ c.entries ∧
            entry.id ≠ source.id ∧ entry.present = true ∧
            directory uri <+: entry.uri := by
          intro entry hentry
          unfold State.descendants at hentry
          split at hentry
          case isTrue =>
            obtain ⟨hmem, hkept⟩ := List.mem_filter.mp hentry
            rw [Bool.and_eq_true, Bool.and_eq_true, decide_eq_true_eq, List.isPrefixOf_iff_prefix] at hkept
            exact ⟨hmem, hkept.1.1, hkept.1.2, hkept.2⟩
          case isFalse => exact absurd hentry List.not_mem_nil
        have hclear : ∀ entry ∈ c.descendants source uri destination,
            State.moved source uri destination entry ≠ destination.uri ∧
            c.find (.uri (State.moved source uri destination entry)) = none := by
          intro entry hentry
          have hall := List.all_eq_true.mp hclears entry hentry
          rw [Bool.and_eq_true, Bool.and_eq_true, decide_eq_true_eq, decide_eq_true_eq,
            Option.isNone_iff_eq_none] at hall
          exact ⟨hall.1.2, hall.2⟩
        have hself : State.moved source uri destination source = destination.uri := if_pos rfl
        have hids : ((c.descendants source uri destination).map Entry.id).Nodup := by
          unfold State.descendants
          split
          case isTrue => exact h.ids.sublist (List.filter_sublist.map _)
          case isFalse => exact List.nodup_nil
        have htargets : ((c.descendants source uri destination).map (State.moved source uri destination)).Nodup := by
          refine (List.nodup_map_iff_inj_on (List.Nodup.of_map _ hids)).mpr fun a ha b hb heq => ?_
          obtain ⟨hamem, haid, halive, haprefix⟩ := hbelow a ha
          obtain ⟨hbmem, hbid, hblive, hbprefix⟩ := hbelow b hb
          unfold State.moved at heq
          rw [if_neg haid, if_neg hbid] at heq
          exact h.live_unique hamem hbmem halive hblive (directory_drop haprefix hbprefix (List.append_cancel_left heq))
        have hmoves : ∃ c', (source :: c.descendants source uri destination).foldlM
            (State.moveEntry startedAt source uri destination) c = .ok c' ∧
            Inv c' ∧ Moved c startedAt source uri destination (source :: c.descendants source uri destination) c' := by
          refine moveEntries_spec source startedAt uri destination h ?_ ?_ ?_ ?_
          · refine List.forall_mem_cons.mpr ⟨⟨hmem, hkey⟩, fun entry hentry => ?_⟩
            obtain ⟨hentrymem, -, hlive, -⟩ := hbelow entry hentry
            exact ⟨hentrymem, h.live_key hentrymem hlive⟩
          · rw [List.map_cons, List.nodup_cons]
            refine ⟨fun hid => ?_, hids⟩
            obtain ⟨entry, hentry, heq⟩ := List.mem_map.mp hid
            exact (hbelow entry hentry).2.1 heq
          · rw [List.map_cons, List.nodup_cons, hself]
            refine ⟨fun hin => ?_, htargets⟩
            obtain ⟨entry, hentry, heq⟩ := List.mem_map.mp hin
            exact (hclear entry hentry).1 heq
          · refine List.forall_mem_cons.mpr ⟨?_, fun entry hentry => Inv.find_none (hclear entry hentry).2⟩
            rw [hself]
            exact Inv.find_none htarget
        obtain ⟨c', hc', hinv, hmoved⟩ := hmoves
        exact ⟨c', hc', hinv, .moved hsource htarget (Nat.le_of_not_lt htimely) hmoved⟩

/-! ### Calls -/

theorem annotate_inv {c : State} (h : Inv c) (uri : Text) (notes : String) : Inv (c.annotate uri notes) := by
  unfold State.annotate
  split
  case h_1 => exact h
  case h_2 entry _ =>
    refine h.map_same fun row _ => ?_
    split <;> exact ⟨rfl, rfl, rfl, fun hpresent => hpresent⟩

/-- What every descriptor keeps, with those before it, an observation of descriptors keeps. -/
theorem observeDescriptors_spec {P : List Descriptor → State → Prop} {startedAt seenAt : Nat}
    (step : ∀ done c descriptor c', Inv c → P done c → Described c startedAt seenAt descriptor c' →
      P (done ++ [descriptor]) c')
    {descriptors done : List Descriptor} {c : State} (h : Inv c) (hP : P done c) :
    ∃ c', c.observeDescriptors startedAt seenAt descriptors = .ok c' ∧ Inv c' ∧ P (done ++ descriptors) c' := by
  unfold State.observeDescriptors
  induction descriptors generalizing c done with
  | nil => exact ⟨c, rfl, h, (List.append_nil done).symm ▸ hP⟩
  | cons descriptor rest ih =>
    obtain ⟨next, hnext, hinv, hdescribed⟩ := observeDescriptor_spec h startedAt seenAt descriptor
    obtain ⟨c', hc', hinv', hP'⟩ := ih hinv (step done c descriptor next h hP hdescribed)
    refine ⟨c', ?_, hinv', ?_⟩
    · rw [List.foldlM_cons]
      exact Results.bind_eq_ok.mpr ⟨next, hnext, hc'⟩
    · rwa [List.append_assoc] at hP'

/-- A call that is sound does not violate the constraint. -/
theorem apply_spec {c : State} (h : Inv c) (operation : Operation)
    (hsound : sound c operation = true) : ∃ c', Observes c operation c' ∧ Inv c' := by
  cases operation with
  | describe startedAt seenAt descriptors =>
    obtain ⟨c', hc', hinv, -⟩ := @observeDescriptors_spec (fun _ _ => True) startedAt seenAt
      (fun _ _ _ _ _ _ _ => trivial) descriptors [] c h trivial
    exact ⟨c', hc', hinv⟩
  | delete startedAt uri =>
    obtain ⟨c', hc', hinv, -⟩ := observeDeletion_spec h startedAt uri
    exact ⟨c', hc', hinv⟩
  | move startedAt uri destination slash =>
    obtain ⟨c', hc', hinv, -⟩ := observeMove_spec h startedAt uri destination slash hsound
    exact ⟨c', hc', hinv⟩
  | annotate uri notes => exact ⟨_, rfl, annotate_inv h uri notes⟩

/-- Every operation keeps the catalogue in order. -/
theorem observes_inv {c c' : State} {operation : Operation} (h : Inv c)
    (hsound : sound c operation = true) (hstep : Observes c operation c') :
    Inv c' := by
  obtain ⟨c'', hc'', hinv⟩ := apply_spec h operation hsound
  exact Except.ok.inj (hstep.symm.trans hc'') ▸ hinv

/-- The runs whose calls are sound. -/
abbrev Sound : State → Operation → State → Prop := Guarded Observes fun c operation => sound c operation = true

theorem empty_inv : Inv empty :=
  ⟨List.nodup_nil, fun _ h => absurd h List.not_mem_nil, List.nodup_nil, fun _ h => absurd h List.not_mem_nil⟩

/-- The catalogue is in order after every run. -/
theorem run_inv {operations : List Operation} {c : State} (h : Steps Sound empty operations c) : Inv c :=
  h.invariant (P := Inv) (fun _ _ _ hinv hstep => observes_inv hinv hstep.1 hstep.2) empty_inv

/-! ### Convergence -/

/-- The descriptions `S` and the deletions `D` that the catalogue has observed. -/
structure Converges (S D : Nat → Text → Prop) (c : State) : Prop where
  tombstones : ∀ entry ∈ c.entries, entry.present = false → ∃ uri, D entry.startedAt uri ∧ covers uri entry.uri = true
  recorded : ∀ startedAt uri, D startedAt uri → ∃ entry ∈ c.entries, entry.present = false ∧
    entry.uri = uri ∧ startedAt ≤ entry.startedAt
  live : ∀ entry ∈ c.entries, entry.present = true → S entry.startedAt entry.uri ∧
    ∀ startedAt uri, D startedAt uri → covers uri entry.uri = true → startedAt < entry.startedAt
  complete : ∀ startedAt uri, S startedAt uri →
    (∃ later path, D later path ∧ covers path uri = true ∧ startedAt ≤ later) ∨
    ∃ entry ∈ c.entries, entry.present = true ∧ entry.uri = uri ∧ startedAt ≤ entry.startedAt

namespace Converges

variable {S D : Nat → Text → Prop} {c c' : State}

theorem congr {S' D' : Nat → Text → Prop} (h : Converges S D c)
    (hS : ∀ startedAt uri, S startedAt uri ↔ S' startedAt uri)
    (hD : ∀ startedAt uri, D startedAt uri ↔ D' startedAt uri) : Converges S' D' c := by
  obtain rfl : S = S' := funext fun startedAt => funext fun uri => propext (hS startedAt uri)
  obtain rfl : D = D' := funext fun startedAt => funext fun uri => propext (hD startedAt uri)
  exact h

/-- An observation that is not stale is later than the deletions. -/
theorem timely (h : Converges S D c) {startedAt : Nat} {uri : Text} (htimely : c.stale startedAt uri = false)
    (hdistinct : ∀ path, ¬ D startedAt path) :
    ∀ earlier path, D earlier path → covers path uri = true → earlier < startedAt := by
  intro earlier path hD hcovers
  obtain ⟨entry, hentry, hgone, rfl, hle⟩ := h.recorded earlier path hD
  have hnot : ¬ startedAt < entry.startedAt := by
    intro hlt
    refine absurd (List.any_eq_true.mpr ⟨entry, hentry, ?_⟩) (Bool.not_eq_true _ ▸ htimely)
    rw [hgone, decide_eq_true hlt, hcovers]
    rfl
  refine Nat.lt_of_le_of_ne (Nat.le_trans hle (Nat.le_of_not_lt hnot)) fun heq => ?_
  exact hdistinct entry.uri (heq ▸ hD)

/-- A description that is the first at its time is what the catalogue then tells. -/
theorem describe (h : Converges S D c) (hinv : Inv c) {startedAt seenAt : Nat} {descriptor : Descriptor}
    (hdistinct : ∀ path, ¬ D startedAt path) (hdescribed : Described c startedAt seenAt descriptor c') :
    Converges (fun t uri => S t uri ∨ t = startedAt ∧ uri = descriptor.uri) D c' := by
  have hlive : ∀ {row : Entry},
      (S row.startedAt row.uri ∧ ∀ t uri, D t uri → covers uri row.uri = true → t < row.startedAt) →
      (S row.startedAt row.uri ∨ row.startedAt = startedAt ∧ row.uri = descriptor.uri) ∧
        ∀ t uri, D t uri → covers uri row.uri = true → t < row.startedAt := fun hrow => ⟨.inl hrow.1, hrow.2⟩
  cases hdescribed with
  | stale late =>
    refine ⟨h.tombstones, h.recorded, fun row hrow hpresent => hlive (h.live row hrow hpresent), fun t uri hS => ?_⟩
    obtain hS | ⟨rfl, rfl⟩ := hS
    · exact h.complete t uri hS
    · obtain ⟨entry, hentry, hstale⟩ := List.any_eq_true.mp late
      rw [Bool.and_eq_true, Bool.and_eq_true, Bool.not_eq_true', decide_eq_true_eq] at hstale
      obtain ⟨path, hD, hcovers⟩ := h.tombstones entry hentry hstale.1.1
      exact .inl ⟨entry.startedAt, path, hD, covers_trans hcovers hstale.2, Nat.le_of_lt hstale.1.2⟩
  | @known entry mem live uri late =>
    refine ⟨h.tombstones, h.recorded, fun row hrow hpresent => hlive (h.live row hrow hpresent), fun t path hS => ?_⟩
    obtain hS | ⟨rfl, rfl⟩ := hS
    · exact h.complete t path hS
    · exact .inr ⟨entry, mem, live, uri, Nat.le_of_lt late⟩
  | @seen entry mem live uri le timely =>
    have hafter := h.timely timely hdistinct
    have hupdated : {entry with present := true, startedAt, lastSeenAt := seenAt, descriptor} ∈
        (c.update entry.id fun row =>
          {row with present := true, startedAt, lastSeenAt := seenAt, descriptor}).entries :=
      List.mem_map.mpr ⟨entry, mem, if_pos rfl⟩
    have hother : ∀ row ∈ c.entries, row.id ≠ entry.id →
        row ∈ (c.update entry.id fun row =>
            {row with present := true, startedAt, lastSeenAt := seenAt, descriptor}).entries :=
      fun row hrow hne => List.mem_map.mpr ⟨row, hrow, if_neg hne⟩
    refine ⟨fun row hrow hgone => ?_, fun t path hD => ?_, fun row hrow hpresent => ?_, fun t path hS => ?_⟩
    · obtain ⟨old, -, -, rfl⟩ | ⟨hrow, -⟩ := Inv.mem_update hrow
      · cases hgone
      · exact h.tombstones row hrow hgone
    · obtain ⟨row, hrow, hgone, huri, hle⟩ := h.recorded t path hD
      refine ⟨row, hother row hrow fun heq => ?_, hgone, huri, hle⟩
      rw [hinv.same_id hrow mem heq, live] at hgone
      cases hgone
    · obtain ⟨old, hold, hid, rfl⟩ | ⟨hrow, -⟩ := Inv.mem_update hrow
      · obtain rfl := hinv.same_id hold mem hid
        exact ⟨.inr ⟨rfl, uri⟩, fun t path hD hcovers => hafter t path hD (uri ▸ hcovers)⟩
      · exact hlive (h.live row hrow hpresent)
    · obtain hS | ⟨rfl, rfl⟩ := hS
      · obtain hcovered | ⟨row, hrow, hpresent, huri, hle⟩ := h.complete t path hS
        · exact .inl hcovered
        · by_cases hid : row.id = entry.id
          · obtain rfl := hinv.same_id hrow mem hid
            exact .inr ⟨_, hupdated, rfl, huri, Nat.le_trans hle le⟩
          · exact .inr ⟨row, hother row hrow hid, hpresent, huri, hle⟩
      · exact .inr ⟨_, hupdated, rfl, uri, Nat.le_refl _⟩
  | @created f generation gone same timely =>
    have hafter := h.timely timely hdistinct
    have hrows : ∀ {P : Entry → Prop}, (∀ row ∈ c.entries, P (f row)) →
        P ⟨c.next, descriptor.uri, .uri descriptor.uri, generation, descriptor, "", true, startedAt, seenAt⟩ →
        ∀ row ∈ c.entries.map f ++ [⟨c.next, descriptor.uri, .uri descriptor.uri, generation,
          descriptor, "", true, startedAt, seenAt⟩], P row := by
      intro P hold hnew row hrow
      obtain hrow | hrow := List.mem_append.mp hrow
      · obtain ⟨old, hmem, rfl⟩ := List.mem_map.mp hrow
        exact hold old hmem
      · exact List.mem_singleton.mp hrow ▸ hnew
    refine ⟨hrows (fun row hrow hgone => ?_) nofun, fun t path hD => ?_,
      hrows (fun row hrow hpresent => ?_) fun _ => ?_, fun t path hS => ?_⟩
    · obtain ⟨-, huri, hpresent, hstarted, -⟩ := same row
      rw [huri, hstarted]
      exact h.tombstones row hrow (hpresent ▸ hgone)
    · obtain ⟨row, hrow, hgone, huri, hle⟩ := h.recorded t path hD
      obtain ⟨-, huri', hpresent, hstarted, -⟩ := same row
      exact ⟨f row, List.mem_append_left _ (List.mem_map_of_mem hrow), hpresent.trans hgone,
        huri'.trans huri, hstarted ▸ hle⟩
    · obtain ⟨-, huri, hpresent', hstarted, -⟩ := same row
      rw [huri, hstarted]
      exact hlive (h.live row hrow (hpresent' ▸ hpresent))
    · exact ⟨.inr ⟨rfl, rfl⟩, hafter⟩
    · obtain hS | ⟨rfl, rfl⟩ := hS
      · obtain hcovered | ⟨row, hrow, hpresent, huri, hle⟩ := h.complete t path hS
        · exact .inl hcovered
        · obtain ⟨-, huri', hpresent', hstarted, -⟩ := same row
          exact .inr ⟨f row, List.mem_append_left _ (List.mem_map_of_mem hrow),
            hpresent'.trans hpresent, huri'.trans huri, hstarted ▸ hle⟩
      · exact .inr ⟨_, List.mem_append_right _ (List.mem_singleton.mpr rfl), rfl, rfl, Nat.le_refl _⟩

/-- A deletion that forgets nothing is what the catalogue then tells. -/
theorem delete (h : Converges S D c) {startedAt : Nat} {uri : Text} (hsound : forgets c startedAt uri = false)
    (hdeleted : Deleted c startedAt uri c') : Converges S (fun t path => D t path ∨ t = startedAt ∧ path = uri) c' := by
  have hrows : ∀ {P : Entry → Prop}, (∀ row ∈ c.entries, P (State.deleted startedAt uri row)) →
      P (tombstone c.next startedAt uri) →
      ∀ row ∈ c'.entries, P row := by
    intro P hold hnew row hrow
    obtain ⟨old, hmem, rfl⟩ | rfl := hdeleted.only row hrow
    · exact hold old hmem
    · exact hnew
  refine ⟨hrows (fun row hrow hgone => ?_) fun _ => ⟨uri, .inr ⟨rfl, rfl⟩, covers_refl uri⟩, fun t path hD => ?_,
    hrows (fun row hrow hpresent => ?_) nofun, fun t path hS => ?_⟩
  · by_cases hcase : covers uri row.uri = true ∧ row.startedAt ≤ startedAt
    · rw [deleted_of_covers hcase.1 hcase.2]
      exact ⟨uri, .inr ⟨rfl, rfl⟩, hcase.1⟩
    · rw [deleted_of_not hcase] at hgone ⊢
      obtain ⟨path, hD, hcovers⟩ := h.tombstones row hrow hgone
      exact ⟨path, .inl hD, hcovers⟩
  · -- A tombstone stays, and no earlier than this deletion where it is covered by it.
    have hstays : ∀ row ∈ c.entries, row.present = false → (State.deleted startedAt uri row).present = false ∧
        (State.deleted startedAt uri row).uri = row.uri ∧
        row.startedAt ≤ (State.deleted startedAt uri row).startedAt := by
      intro row _ hgone
      by_cases hcase : covers uri row.uri = true ∧ row.startedAt ≤ startedAt
      · rw [deleted_of_covers hcase.1 hcase.2]
        exact ⟨rfl, rfl, hcase.2⟩
      · rw [deleted_of_not hcase]
        exact ⟨hgone, rfl, Nat.le_refl _⟩
    obtain hD | ⟨rfl, rfl⟩ := hD
    · obtain ⟨row, hrow, hgone, huri, hle⟩ := h.recorded t path hD
      obtain ⟨hgone', huri', hle'⟩ := hstays row hrow hgone
      exact ⟨_, hdeleted.rows row hrow, hgone', huri'.trans huri, Nat.le_trans hle hle'⟩
    · obtain ⟨row, hrow, rfl⟩ | hnew := hdeleted.known
      · by_cases hle : row.startedAt ≤ t
        · refine ⟨_, hdeleted.rows row hrow, ?_⟩
          rw [deleted_of_covers (covers_refl _) hle]
          exact ⟨rfl, rfl, Nat.le_refl _⟩
        · cases hpresent : row.present with
          | false =>
            refine ⟨_, hdeleted.rows row hrow, ?_⟩
            rw [deleted_of_not fun hcase => hle hcase.2]
            exact ⟨hpresent, rfl, Nat.le_of_not_le hle⟩
          | true =>
            -- The URI has been seen since; there is a tombstone of it.
            have hlater : c.entries.any (fun entry => entry.present && entry.uri = row.uri &&
                t < entry.startedAt) = true := by
              refine List.any_eq_true.mpr ⟨row, hrow, ?_⟩
              rw [hpresent, decide_eq_true rfl, decide_eq_true (Nat.lt_of_not_le hle)]
              rfl
            unfold forgets at hsound
            rw [hlater, Bool.true_and, Bool.not_eq_false'] at hsound
            obtain ⟨other, hother, hsame⟩ := List.any_eq_true.mp hsound
            rw [Bool.and_eq_true, Bool.not_eq_true', decide_eq_true_eq] at hsame
            refine ⟨_, hdeleted.rows other hother, ?_⟩
            by_cases hle' : other.startedAt ≤ t
            · rw [deleted_of_covers (hsame.2 ▸ covers_refl _) hle']
              exact ⟨rfl, hsame.2, Nat.le_refl _⟩
            · rw [deleted_of_not fun hcase => hle' hcase.2]
              exact ⟨hsame.1, hsame.2, Nat.le_of_not_le hle'⟩
      · exact ⟨_, hnew, rfl, rfl, Nat.le_refl _⟩
  · by_cases hcase : covers uri row.uri = true ∧ row.startedAt ≤ startedAt
    · rw [deleted_of_covers hcase.1 hcase.2] at hpresent
      cases hpresent
    · rw [deleted_of_not hcase] at hpresent ⊢
      obtain ⟨hS, hafter⟩ := h.live row hrow hpresent
      refine ⟨hS, fun t path hD hcovers => ?_⟩
      obtain hD | ⟨rfl, rfl⟩ := hD
      · exact hafter t path hD hcovers
      · exact Nat.lt_of_not_le fun hle => hcase ⟨hcovers, hle⟩
  · obtain ⟨later, path', hD, hcovers, hle⟩ | ⟨row, hrow, hpresent, huri, hle⟩ := h.complete t path hS
    · exact .inl ⟨later, path', .inl hD, hcovers, hle⟩
    · by_cases hcase : covers uri row.uri = true ∧ row.startedAt ≤ startedAt
      · exact .inl ⟨startedAt, uri, .inr ⟨rfl, rfl⟩, huri ▸ hcase.1, Nat.le_trans hle hcase.2⟩
      · refine .inr ⟨_, hdeleted.rows row hrow, ?_⟩
        rw [deleted_of_not hcase]
        exact ⟨hpresent, huri, hle⟩

end Converges

/-! ### Runs -/

/-- When an operation started. -/
def Operation.startedAt : Operation → Option Nat
  | .describe startedAt _ _ | .delete startedAt _ | .move startedAt _ _ _ => some startedAt
  | .annotate _ _ => none

def Operation.isMove : Operation → Bool
  | .move _ _ _ _ => true
  | _ => false

/-- The operations have described the URI, with this start. -/
def described (operations : List Operation) (startedAt : Nat) (uri : Text) : Prop :=
  ∃ seenAt descriptors, .describe startedAt seenAt descriptors ∈ operations ∧
    ∃ descriptor ∈ descriptors, descriptor.uri = uri

/-- Descriptions and deletions start at different times. -/
def Distinct (operations : List Operation) : Prop :=
  ∀ startedAt uri, .delete startedAt uri ∈ operations → ∀ path, ¬ described operations startedAt path

theorem described_append {operations : List Operation} {operation : Operation} {startedAt : Nat} {uri : Text} :
    described (operations ++ [operation]) startedAt uri ↔ described operations startedAt uri ∨
        described [operation] startedAt uri := by
  unfold described
  simp only [List.mem_append]
  grind

theorem not_described {operation : Operation} (h : ∀ startedAt seenAt descriptors,
    operation ≠ .describe startedAt seenAt descriptors) (startedAt : Nat)
    (uri : Text) : ¬ described [operation] startedAt uri := by
  rintro ⟨seenAt, descriptors, hmem, -⟩
  exact h startedAt seenAt descriptors (List.mem_singleton.mp hmem).symm

theorem annotate_rows (c : State) (uri : Text) (notes : String) :
    ∃ f : Entry → Entry, (c.annotate uri notes).entries = c.entries.map f ∧
    ∀ entry, (f entry).id = entry.id ∧ (f entry).uri = entry.uri ∧
    (f entry).present = entry.present ∧ (f entry).startedAt = entry.startedAt := by
  unfold State.annotate
  split
  case h_1 => exact ⟨id, (List.map_id _).symm, fun entry => ⟨rfl, rfl, rfl, rfl⟩⟩
  case h_2 entry _ =>
    refine ⟨_, rfl, fun row => ?_⟩
    split <;> exact ⟨rfl, rfl, rfl, rfl⟩

/-- Notes do not change what is present. -/
theorem Converges.annotate {S D : Nat → Text → Prop} {c : State} (h : Converges S D c) (uri : Text) (notes : String) :
    Converges S D (c.annotate uri notes) := by
  obtain ⟨f, hrows, hsame⟩ := annotate_rows c uri notes
  refine ⟨fun row hrow hgone => ?_, fun t path hD => ?_, fun row hrow hpresent => ?_, fun t path hS => ?_⟩
  · obtain ⟨old, hold, rfl⟩ := List.mem_map.mp (hrows ▸ hrow)
    obtain ⟨-, huri, hpresent, hstarted⟩ := hsame old
    rw [huri, hstarted]
    exact h.tombstones old hold (hpresent ▸ hgone)
  · obtain ⟨old, hold, hgone, huri, hle⟩ := h.recorded t path hD
    obtain ⟨-, huri', hpresent, hstarted⟩ := hsame old
    exact ⟨f old, hrows ▸ List.mem_map_of_mem hold, hpresent.trans hgone, huri'.trans huri, hstarted ▸ hle⟩
  · obtain ⟨old, hold, rfl⟩ := List.mem_map.mp (hrows ▸ hrow)
    obtain ⟨-, huri, hpresent', hstarted⟩ := hsame old
    rw [huri, hstarted]
    exact h.live old hold (hpresent' ▸ hpresent)
  · obtain hcovered | ⟨old, hold, hpresent, huri, hle⟩ := h.complete t path hS
    · exact .inl hcovered
    · obtain ⟨-, huri', hpresent', hstarted⟩ := hsame old
      exact .inr ⟨f old, hrows ▸ List.mem_map_of_mem hold, hpresent'.trans hpresent, huri'.trans huri, hstarted ▸ hle⟩

/-- Without moves, the catalogue converges to what the operations so far say. -/
def Recorded (operations : List Operation) (c : State) : Prop :=
  Inv c ∧ ((∀ operation ∈ operations, operation.isMove = false) → Distinct operations →
    Converges (described operations) (fun startedAt uri => .delete startedAt uri ∈ operations) c)

theorem recorded_empty : Recorded [] empty :=
  ⟨empty_inv, fun _ _ => ⟨fun _ hmem => absurd hmem List.not_mem_nil, fun _ _ hmem => absurd hmem List.not_mem_nil,
    fun _ hmem => absurd hmem List.not_mem_nil, fun _ _ ⟨_, _, hmem, _⟩ => absurd hmem List.not_mem_nil⟩⟩

/-- What has been described is recorded, operation by operation. -/
theorem Recorded.step {operations : List Operation} {c c' : State} {operation : Operation} (h : Recorded operations c)
    (hstep : Sound c operation c') : Recorded (operations ++ [operation]) c' := by
  refine ⟨observes_inv h.1 hstep.1 hstep.2, fun hmoves hdistinct => ?_⟩
  obtain ⟨hmoves, hmove⟩ := List.forall_mem_append.mp hmoves
  have hbefore := h.2 hmoves fun startedAt uri hdelete path hdescribed =>
    hdistinct startedAt uri (List.mem_append_left _ hdelete) path (described_append.mpr (.inl hdescribed))
  -- An operation that describes nothing and deletes nothing adds nothing.
  have hnothing : ∀ {D D' : Nat → Text → Prop},
      (∀ startedAt seenAt descriptors, operation ≠ .describe startedAt seenAt descriptors) →
      (∀ t path, D t path ↔ D' t path) → Converges (described operations) D c' →
      Converges (described (operations ++ [operation])) D' c' := by
    intro D D' hnot hD hconverges
    refine hconverges.congr (fun t path => ?_) hD
    rw [described_append]
    exact ⟨.inl, fun hcase => hcase.resolve_right (not_described hnot t path)⟩
  cases operation with
  | describe startedAt seenAt descriptors =>
    by_cases hempty : descriptors = []
    · obtain rfl : c = c' := by
        have hok : apply c (.describe startedAt seenAt descriptors) = .ok c := by
          rw [hempty]
          rfl
        exact Except.ok.inj (hok.symm.trans hstep.2)
      refine hbefore.congr (fun t path => ?_) fun t path => ?_
      · rw [described_append]
        refine ⟨.inl, fun hcase => hcase.resolve_right ?_⟩
        rintro ⟨seenAt', descriptors', hmem, descriptor, hdescriptor, -⟩
        obtain ⟨-, -, rfl⟩ := Operation.describe.inj (List.mem_singleton.mp hmem)
        rw [hempty] at hdescriptor
        exact absurd hdescriptor List.not_mem_nil
      · rw [List.mem_append, List.mem_singleton]
        exact ⟨.inl, fun hcase => hcase.resolve_right fun heq => nomatch heq⟩
    · obtain ⟨descriptor, hdescriptor⟩ := List.exists_mem_of_ne_nil _ hempty
      have hD : ∀ path, ¬ .delete startedAt path ∈ operations := fun path hdelete =>
        hdistinct startedAt path (List.mem_append_left _ hdelete) descriptor.uri
          ⟨seenAt, descriptors, List.mem_append_right _ (List.mem_singleton.mpr rfl), descriptor, hdescriptor, rfl⟩
      obtain ⟨c'', hc'', -, hconverges⟩ := @observeDescriptors_spec
        (fun done c => Converges (fun t path => described operations t path ∨ t = startedAt ∧
          ∃ descriptor ∈ done, descriptor.uri = path)
          (fun t path => .delete t path ∈ operations) c) startedAt seenAt
        (fun done c descriptor c' hinv hconverges hdescribed =>
            (hconverges.describe hinv hD hdescribed).congr (fun t path => by
          rw [or_assoc]
          refine or_congr_right ⟨?_, ?_⟩
          · rintro (⟨rfl, other, hother, huri⟩ | ⟨rfl, rfl⟩)
            · exact ⟨rfl, other, List.mem_append_left _ hother, huri⟩
            · exact ⟨rfl, descriptor, List.mem_append_right _ (List.mem_singleton.mpr rfl), rfl⟩
          · rintro ⟨rfl, other, hother, rfl⟩
            obtain hother | hother := List.mem_append.mp hother
            · exact .inl ⟨rfl, other, hother, rfl⟩
            · exact .inr ⟨rfl, congrArg Descriptor.uri (List.mem_singleton.mp hother)⟩) fun _ _ => Iff.rfl)
        descriptors [] c h.1 (hbefore.congr (fun t path => ⟨.inl, fun hcase => hcase.resolve_right
          fun ⟨_, _, hmem, _⟩ => absurd hmem List.not_mem_nil⟩) fun _ _ => Iff.rfl)
      obtain rfl := Except.ok.inj (hc''.symm.trans hstep.2)
      refine hconverges.congr (fun t path => ?_) fun t path => ?_
      · rw [described_append, List.nil_append]
        refine or_congr_right ⟨?_, ?_⟩
        · rintro ⟨rfl, other, hother, huri⟩
          exact ⟨seenAt, descriptors, List.mem_singleton.mpr rfl, other, hother, huri⟩
        · rintro ⟨seenAt', descriptors', hmem, other, hother, huri⟩
          obtain ⟨rfl, -, rfl⟩ := Operation.describe.inj (List.mem_singleton.mp hmem)
          exact ⟨rfl, other, hother, huri⟩
      · rw [List.mem_append, List.mem_singleton]
        exact ⟨.inl, fun hcase => hcase.resolve_right fun heq => nomatch heq⟩
  | delete startedAt uri =>
    obtain ⟨c'', hc'', -, hdeleted⟩ := observeDeletion_spec h.1 startedAt uri
    obtain rfl := Except.ok.inj (hc''.symm.trans hstep.2)
    have hsound : forgets c startedAt uri = false := Bool.not_eq_true' _ ▸ hstep.1
    refine hnothing (fun _ _ _ heq => nomatch heq) (fun t path => ?_) (hbefore.delete hsound hdeleted)
    rw [List.mem_append, List.mem_singleton, Operation.delete.injEq]
  | move startedAt uri destination slash => exact nomatch hmove _ (List.mem_singleton.mpr rfl)
  | annotate uri notes =>
    obtain rfl := Except.ok.inj hstep.2
    refine hnothing (fun _ _ _ heq => nomatch heq) (fun t path => ?_) (hbefore.annotate uri notes)
    rw [List.mem_append, List.mem_singleton]
    exact ⟨.inl, fun hcase => hcase.resolve_right fun heq => nomatch heq⟩

/-- Without moves the catalogue tells of every URI what was said of it last. -/
theorem run_converges {operations : List Operation} {c : State} (h : Steps Sound empty operations c)
    (hmoves : ∀ operation ∈ operations, operation.isMove = false) (hdistinct : Distinct operations) :
    Converges (described operations) (fun startedAt uri => .delete startedAt uri ∈ operations) c :=
  (h.recorded (P := Recorded) (fun _ _ _ _ hrecorded hstep => hrecorded.step hstep) recorded_empty).2 hmoves hdistinct

/-- The operations so far started by this time. -/
def By (operations : List Operation) (time : Nat) : Prop :=
  ∀ operation ∈ operations, ∀ startedAt, operation.startedAt = some startedAt → startedAt ≤ time

/-- What rows say, the operations so far have said. -/
def Timed (operations : List Operation) (c : State) : Prop :=
  Inv c ∧ ∀ time, By operations time → ∀ entry ∈ c.entries, entry.startedAt ≤ time

theorem Timed.step {operations : List Operation} {c c' : State} {operation : Operation}
    (h : Timed operations c) (hstep : Sound c operation c') :
    Timed (operations ++ [operation]) c' := by
  refine ⟨observes_inv h.1 hstep.1 hstep.2, fun time htime => ?_⟩
  obtain ⟨hbefore, hnow⟩ := List.forall_mem_append.mp htime
  have hold := h.2 time hbefore
  have hnow := hnow operation (List.mem_singleton.mpr rfl)
  have hdeleted : ∀ {startedAt uri}, startedAt ≤ time → Deleted c startedAt uri c' →
      ∀ entry ∈ c'.entries, entry.startedAt ≤ time := by
    intro startedAt uri hle hdeleted entry hentry
    obtain ⟨row, hrow, rfl⟩ | rfl := hdeleted.only entry hentry
    · unfold State.deleted
      split
      · exact hle
      · exact hold row hrow
    · exact hle
  cases operation with
  | describe startedAt seenAt descriptors =>
    have hle : startedAt ≤ time := hnow startedAt rfl
    obtain ⟨c'', hc'', -, hall⟩ := @observeDescriptors_spec
      (fun _ c => ∀ entry ∈ c.entries, entry.startedAt ≤ time) startedAt seenAt
      (fun _ c descriptor c' _ hall hdescribed => by
        cases hdescribed with
        | stale late => exact hall
        | known mem live uri late => exact hall
        | seen mem live uri le timely =>
          intro row hrow
          obtain ⟨old, -, -, rfl⟩ | ⟨hrow, -⟩ := Inv.mem_update hrow
          · exact hle
          · exact hall row hrow
        | created gone same timely =>
          intro row hrow
          obtain hrow | hrow := List.mem_append.mp hrow
          · obtain ⟨old, hmem, rfl⟩ := List.mem_map.mp hrow
            exact (same old).2.2.2.1 ▸ hall old hmem
          · exact List.mem_singleton.mp hrow ▸ hle) descriptors [] c h.1 hold
    obtain rfl := Except.ok.inj (hc''.symm.trans hstep.2)
    exact hall
  | delete startedAt uri =>
    obtain ⟨c'', hc'', -, hspec⟩ := observeDeletion_spec h.1 startedAt uri
    obtain rfl := Except.ok.inj (hc''.symm.trans hstep.2)
    exact hdeleted (hnow startedAt rfl) hspec
  | move startedAt uri destination slash =>
    have hle : startedAt ≤ time := hnow startedAt rfl
    obtain ⟨c'', hc'', -, hspec⟩ := observeMove_spec h.1 startedAt uri destination slash hstep.1
    obtain rfl := Except.ok.inj (hc''.symm.trans hstep.2)
    cases hspec with
    | gone deleted lost => exact hdeleted hle deleted
    | moved found free timely moved =>
      intro entry hentry
      obtain hrow | ⟨row, -, rfl⟩ | ⟨-, rfl⟩ := moved.only entry hentry
      · exact hold entry hrow
      · exact hle
      · exact hle
  | annotate uri notes =>
    obtain rfl := Except.ok.inj hstep.2
    obtain ⟨f, hrows, hsame⟩ := annotate_rows c uri notes
    intro entry hentry
    obtain ⟨old, hmem, rfl⟩ := List.mem_map.mp (hrows ▸ hentry)
    exact (hsame old).2.2.2 ▸ hold old hmem

/-- No row is from later than the last operation. -/
theorem run_timed {operations : List Operation} {c : State} (h : Steps Sound empty operations c)
    {time : Nat} (htime : By operations time) :
    ∀ entry ∈ c.entries, entry.startedAt ≤ time :=
  (h.recorded (P := Timed) (fun _ _ _ _ htimed hstep => htimed.step hstep)
    (⟨empty_inv, fun _ _ _ hmem => absurd hmem List.not_mem_nil⟩ :
    Timed [] empty)).2 time htime

/-! ### Renames -/

/-- The source of a sound move is the entry that is present, in one of its spellings. -/
theorem source_live {c : State} (h : Inv c) {uri : Text} {slash : Bool} {entry : Entry}
    (hentry : entry ∈ c.entries) (hlive : entry.present = true)
    (huri : entry.uri = uri ∨ entry.uri = directory uri)
    (hone : uri = directory uri ∨ c.find (.uri uri) = none ∨ c.find (.uri (directory uri)) = none) :
    c.source uri slash = some entry := by
  have hfound := h.find_live hentry hlive
  unfold State.source
  obtain hname | hname := huri <;> rw [hname] at hfound
  · obtain hsame | hnone | hnone := hone
    · rw [← hsame, hfound]
      dsimp only
      rw [ite_self]
    · exact nomatch hfound.symm.trans hnone
    · rw [hfound, hnone]
  · obtain hsame | hnone | hnone := hone
    · rw [← hsame] at hfound ⊢
      rw [hfound]
      dsimp only
      rw [ite_self]
    · rw [hnone, hfound]
    · exact nomatch hfound.symm.trans hnone

/-- A sound rename onto a URI that is not present moves the entry, when nothing has started since. -/
theorem renamed {c c' : State} (h : Inv c) {startedAt : Nat} {uri : Text} {destination : Descriptor} {slash : Bool}
    (hstep : Sound c (.move startedAt uri destination slash) c')
    (htime : ∀ entry ∈ c.entries, entry.startedAt ≤ startedAt) {entry : Entry}
    (hentry : entry ∈ c.entries) (hlive : entry.present = true) (huri : entry.uri = uri ∨ entry.uri = directory uri)
    (hfree : ∀ row ∈ c.entries, row.present = true → row.uri ≠ destination.uri) :
    Moved c startedAt entry uri destination (entry :: c.descendants entry uri destination) c' := by
  obtain ⟨c'', hc'', -, hspec⟩ := observeMove_spec h startedAt uri destination slash hstep.1
  obtain rfl := Except.ok.inj (hc''.symm.trans hstep.2)
  obtain ⟨hone, hclear⟩ := Bool.and_eq_true_iff.mp hstep.1
  have hsource : c.source uri slash = some entry := by
    refine source_live h hentry hlive huri ?_
    rw [Bool.or_eq_true, Bool.or_eq_true, beq_iff_eq, Option.isNone_iff_eq_none, Option.isNone_iff_eq_none] at hone
    exact or_assoc.mp hone
  cases hspec with
  | moved found free timely moved =>
    obtain rfl := Option.some.inj (hsource.symm.trans found)
    exact moved
  | gone deleted lost =>
    obtain hlate | hknown := lost entry hsource
    · exact absurd hlate (Nat.not_lt.mpr (htime entry hentry))
    · -- What is known of the destination is present, or the move would not be sound.
      obtain ⟨target, htarget⟩ := Option.isSome_iff_exists.mp hknown
      rw [hsource, htarget] at hclear
      dsimp only at hclear
      rw [hlive, decide_eq_false (Nat.not_lt.mpr (htime entry hentry)), Bool.not_true,
        Bool.false_or, Bool.false_or] at hclear
      obtain ⟨hmem, htarget⟩ := h.find_uri htarget
      exact absurd htarget (hfree target hmem hclear)

/-- A move leaves what has been seen since. -/
theorem move_later {c c' : State} (h : Inv c) {startedAt : Nat} {uri : Text} {destination : Descriptor} {slash : Bool}
    (hstep : Sound c (.move startedAt uri destination slash) c') {entry : Entry}
    (hentry : entry ∈ c.entries) (hlate : startedAt < entry.startedAt) :
    entry ∈ c'.entries := by
  obtain ⟨c'', hc'', -, hspec⟩ := observeMove_spec h startedAt uri destination slash hstep.1
  obtain rfl := Except.ok.inj (hc''.symm.trans hstep.2)
  cases hspec with
  | gone deleted lost =>
    have hrow := deleted.rows entry hentry
    rwa [deleted_of_not fun hcase => absurd hcase.2 (Nat.not_le_of_lt hlate)] at hrow
  | @moved source found free timely moved =>
    have hclears : clears c startedAt source uri destination = true := by
      have hmove := (Bool.and_eq_true_iff.mp hstep.1).2
      rw [found, free] at hmove
      exact (Bool.or_eq_true_iff.mp hmove).resolve_left fun hlater =>
        absurd (of_decide_eq_true hlater) (Nat.not_lt.mpr timely)
    refine moved.stays entry hentry fun row hrow hid => absurd hlate (Nat.not_lt.mpr ?_)
    obtain rfl | hrow := List.mem_cons.mp hrow
    · rwa [h.same_id hentry (source_spec h found).1 hid.symm]
    · have hall := List.all_eq_true.mp hclears row hrow
      rw [Bool.and_eq_true, Bool.and_eq_true, decide_eq_true_eq] at hall
      have hmem : row ∈ c.entries := by
        unfold State.descendants at hrow
        split at hrow
        case isTrue => exact List.mem_of_mem_filter hrow
        case isFalse => exact absurd hrow List.not_mem_nil
      rw [h.same_id hentry hmem hid.symm]
      exact hall.1.1

/-! ### What the rows of descriptions are -/

/-- The rows that are present are those from before, as they were noted, and new ones. -/
structure Seen (startedAt : Nat) (c : State) (done : List Descriptor) (c' : State) : Prop where
  next : c.next ≤ c'.next
  times : ∀ entry ∈ c'.entries, entry.startedAt ≤ startedAt
  found : ∀ descriptor ∈ done, ∃ entry ∈ c'.entries, entry.present = true ∧ entry.uri = descriptor.uri
  rows : ∀ entry ∈ c'.entries, entry.present = true →
    (∃ row ∈ c.entries, row.present = true ∧ row.id = entry.id ∧ row.uri = entry.uri ∧ row.notes = entry.notes) ∨
      c.next ≤ entry.id ∧ entry.notes = ""
  kept : ∀ row ∈ c.entries, row.present = true → ∃ entry ∈ c'.entries, entry.present = true ∧
    entry.id = row.id ∧ entry.uri = row.uri
  -- What is not as it was before has been seen now.
  stays : ∀ entry ∈ c'.entries, entry.present = true → entry.startedAt = startedAt ∨
    (∀ descriptor ∈ done, descriptor.uri ≠ entry.uri) ∧ ∃ row ∈ c.entries, SameRow row entry

theorem Seen.step {startedAt seenAt : Nat} {c x x' : State} {done : List Descriptor}
    {descriptor : Descriptor} (hinv : Inv x)
    (h : Seen startedAt c done x) (hdescribed : Described x startedAt seenAt descriptor x') :
    Seen startedAt c (done ++ [descriptor]) x' := by
  have hfound : ∀ {P : Descriptor → Prop}, (∀ other ∈ done, P other) → P descriptor →
      ∀ other ∈ done ++ [descriptor], P other := by
    intro P hdone hnow
    refine List.forall_mem_append.mpr ⟨hdone, fun other hother => ?_⟩
    exact List.mem_singleton.mp hother ▸ hnow
  cases hdescribed with
  | stale late =>
    obtain ⟨entry, hentry, hstale⟩ := List.any_eq_true.mp late
    rw [Bool.and_eq_true, Bool.and_eq_true, decide_eq_true_eq] at hstale
    exact absurd hstale.1.2 (Nat.not_lt.mpr (h.times entry hentry))
  | known mem live uri late => exact absurd late (Nat.not_lt.mpr (h.times _ mem))
  | @seen entry mem live uri le timely =>
    have hupdated : {entry with present := true, startedAt, lastSeenAt := seenAt, descriptor} ∈
        (x.update entry.id fun row =>
          {row with present := true, startedAt, lastSeenAt := seenAt, descriptor}).entries :=
      List.mem_map.mpr ⟨entry, mem, if_pos rfl⟩
    refine ⟨h.next, fun row hrow => ?_, hfound (fun other hother => ?_) ⟨_, hupdated, rfl, uri⟩,
      fun row hrow hpresent => ?_, fun row hrow hpresent => ?_,
      fun row hrow hpresent => ?_⟩
    · obtain ⟨old, -, -, rfl⟩ | ⟨hrow, -⟩ := Inv.mem_update hrow
      · exact Nat.le_refl _
      · exact h.times row hrow
    · obtain ⟨row, hrow, hpresent, huri⟩ := h.found other hother
      by_cases hid : row.id = entry.id
      · obtain rfl := hinv.same_id hrow mem hid
        exact ⟨_, hupdated, rfl, huri⟩
      · exact ⟨row, List.mem_map.mpr ⟨row, hrow, if_neg hid⟩, hpresent, huri⟩
    · obtain ⟨old, hold, hid, rfl⟩ | ⟨hrow, -⟩ := Inv.mem_update hrow
      · obtain rfl := hinv.same_id hold mem hid
        exact h.rows old hold live
      · exact h.rows row hrow hpresent
    · obtain ⟨row, hrow, hpresent, hid, huri⟩ := h.kept row hrow hpresent
      by_cases hsame : row.id = entry.id
      · obtain rfl := hinv.same_id hrow mem hsame
        exact ⟨_, hupdated, rfl, hid, huri⟩
      · exact ⟨row, List.mem_map.mpr ⟨row, hrow, if_neg hsame⟩, hpresent, hid, huri⟩
    · obtain ⟨old, -, -, rfl⟩ | ⟨hrow, hne⟩ := Inv.mem_update hrow
      · exact .inl rfl
      · refine (h.stays row hrow hpresent).imp_right fun ⟨hnot, hold⟩ => ⟨hfound hnot fun hsame => hne ?_, hold⟩
        exact congrArg Entry.id (hinv.live_unique hrow mem hpresent live (hsame.symm.trans uri.symm))
  | @created f generation gone same timely =>
    have hrows : ∀ {P : Entry → Prop}, (∀ row ∈ x.entries, P (f row)) →
        P ⟨x.next, descriptor.uri, .uri descriptor.uri, generation, descriptor, "", true, startedAt, seenAt⟩ →
        ∀ row ∈ x.entries.map f ++ [⟨x.next, descriptor.uri, .uri descriptor.uri, generation,
          descriptor, "", true, startedAt, seenAt⟩], P row := by
      intro P hold hnew row hrow
      obtain hrow | hrow := List.mem_append.mp hrow
      · obtain ⟨old, hmem, rfl⟩ := List.mem_map.mp hrow
        exact hold old hmem
      · exact List.mem_singleton.mp hrow ▸ hnew
    refine ⟨Nat.le_succ_of_le h.next, hrows (fun row hrow => ?_) (Nat.le_refl _),
      hfound (fun other hother => ?_) ⟨_, List.mem_append_right _ (List.mem_singleton.mpr rfl), rfl, rfl⟩,
      hrows (fun row hrow hpresent => ?_) fun _ => .inr ⟨h.next, rfl⟩, fun row hrow hpresent => ?_,
      hrows (fun row hrow hpresent => ?_) fun _ => .inl rfl⟩
    · obtain ⟨-, -, -, hstarted, -⟩ := same row
      exact hstarted ▸ h.times row hrow
    · obtain ⟨row, hrow, hpresent, huri⟩ := h.found other hother
      obtain ⟨-, huri', hpresent', -⟩ := same row
      exact ⟨f row, List.mem_append_left _ (List.mem_map_of_mem hrow), hpresent'.trans hpresent, huri'.trans huri⟩
    · obtain ⟨hid, huri, hpresent', -, hnotes, -⟩ := same row
      rw [hid, huri, hnotes]
      exact h.rows row hrow (hpresent' ▸ hpresent)
    · obtain ⟨row, hrow, hpresent, hid, huri⟩ := h.kept row hrow hpresent
      obtain ⟨hid', huri', hpresent', -⟩ := same row
      exact ⟨f row, List.mem_append_left _ (List.mem_map_of_mem hrow), hpresent'.trans hpresent,
        hid'.trans hid, huri'.trans huri⟩
    · obtain ⟨hid, huri, hpresent', hstarted, hnotes, hseen⟩ := same row
      have hlive : row.present = true := hpresent' ▸ hpresent
      rw [hstarted, huri]
      refine (h.stays row hrow hlive).imp_right fun ⟨hnot, old, hold, hsame⟩ =>
        ⟨hfound hnot (gone row hrow hlive).symm, old, hold, ?_⟩
      exact ⟨hid.trans hsame.1, huri.trans hsame.2.1, hpresent'.trans hsame.2.2.1,
        hstarted.trans hsame.2.2.2.1, hnotes.trans hsame.2.2.2.2.1,
        hseen.trans hsame.2.2.2.2.2⟩

/-- A description shows each of its descriptors. -/
theorem describe_seen {c c' : State} (h : Inv c) {startedAt seenAt : Nat} {descriptors : List Descriptor}
    (hstep : Observes c (.describe startedAt seenAt descriptors) c')
    (htime : ∀ entry ∈ c.entries, entry.startedAt ≤ startedAt) :
    Seen startedAt c descriptors c' := by
  have hbefore : Seen startedAt c [] c :=
    ⟨Nat.le_refl _, htime, fun _ hnil => absurd hnil List.not_mem_nil,
      fun entry hentry hlive => .inl ⟨entry, hentry, hlive, rfl, rfl, rfl⟩,
      fun row hrow hpresent => ⟨row, hrow, hpresent, rfl, rfl⟩,
      fun entry hentry _ => .inr ⟨fun _ hnil => absurd hnil List.not_mem_nil, entry, hentry, SameRow.refl entry⟩⟩
  obtain ⟨c'', hc'', -, hseen⟩ := @observeDescriptors_spec (Seen startedAt c) startedAt seenAt
    (fun _ _ _ _ hinv hseen hdescribed => hseen.step hinv hdescribed) descriptors [] c h hbefore
  obtain rfl := Except.ok.inj (hc''.symm.trans hstep)
  exact hseen

/-- What the catalogue keeps. -/
structure Keeps (operations : List Operation) (c : State) : Prop where
  accepts : ∀ operation, sound c operation = true → ∃ c', Observes c operation c'
  unique : (c.entries.map Entry.key).Nodup ∧ ∀ a ∈ c.entries, ∀ b ∈ c.entries, a.present = true →
    b.present = true → a.uri = b.uri → a = b
  -- Without moves, a URI is present if and only if something describes it later than every deletion of a path above it.
  present : (∀ operation ∈ operations, operation.isMove = false) → Distinct operations → ∀ uri,
    ((∃ entry ∈ c.entries, entry.present = true ∧ entry.uri = uri) ↔
      ∃ startedAt, described operations startedAt uri ∧ ∀ earlier path,
      .delete earlier path ∈ operations → covers path uri = true → earlier < startedAt)
  later : ∀ startedAt uri destination slash c', Sound c (.move startedAt uri destination slash) c' →
    ∀ entry ∈ c.entries, startedAt < entry.startedAt → entry ∈ c'.entries
  renames : ∀ startedAt uri destination slash c',
    Sound c (.move startedAt uri destination slash) c' → By operations startedAt →
    (∀ row ∈ c.entries, row.present = true → row.uri ≠ destination.uri) →
    ∀ entry ∈ c.entries, entry.present = true → entry.uri = uri ∨ entry.uri = directory uri →
      (∃ row ∈ c'.entries, row.present = true ∧ row.uri = destination.uri ∧ row.id = entry.id ∧
        row.notes = entry.notes) ∧
        (destination.isCollection = true → ∀ below ∈ c.entries, below.id ≠ entry.id →
          below.present = true → directory uri <+: below.uri →
          ∃ row ∈ c'.entries, row.present = true ∧
          row.uri = directory destination.uri ++ below.uri.drop (directory uri).length ∧
            row.id = below.id ∧ row.notes = below.notes)
  -- What is described where nothing is present gets an entry of its own.
  creates : ∀ startedAt seenAt descriptors c',
    Observes c (.describe startedAt seenAt descriptors) c' → By operations startedAt →
    ∀ descriptor ∈ descriptors, (∀ row ∈ c.entries, row.present = true → row.uri ≠ descriptor.uri) →
      ∃ entry ∈ c'.entries, entry.present = true ∧ entry.uri = descriptor.uri ∧ entry.notes = "" ∧
      ∀ row ∈ c.entries, row.id ≠ entry.id

/-- While its calls are sound, the catalogue converges. -/
theorem catalogue_converges {operations : List Operation} {c : State}
    (h : Steps Sound empty operations c) : Keeps operations c := by
  have hinv := run_inv h
  refine ⟨fun operation hsound => ?_,
    ⟨hinv.keys, fun a ha b hb hlive hlive' huri => hinv.live_unique ha hb hlive hlive' huri⟩,
    fun hmoves hdistinct uri =>
      ⟨?_, ?_⟩, fun startedAt uri destination slash c' hstep entry hentry hlate =>
      move_later hinv hstep hentry hlate,
    fun startedAt uri destination slash c' hstep hby hfree entry hentry hlive huri => ?_,
    fun startedAt seenAt descriptors c' hstep hby descriptor hdescriptor hfree => ?_⟩
  · obtain ⟨c', hstep, -⟩ := apply_spec hinv operation hsound
    exact ⟨c', hstep⟩
  · rintro ⟨entry, hentry, hlive, rfl⟩
    exact ⟨entry.startedAt, (run_converges h hmoves hdistinct).live entry hentry hlive⟩
  · rintro ⟨startedAt, hdescribed, hafter⟩
    obtain ⟨later, path, hdelete, hcovers, hle⟩ | ⟨entry, hentry, hlive, huri, -⟩ :=
      (run_converges h hmoves hdistinct).complete startedAt uri hdescribed
    · exact absurd (hafter later path hdelete hcovers) (Nat.not_lt.mpr hle)
    · exact ⟨entry, hentry, hlive, huri⟩
  · have hmoved := renamed hinv hstep (run_timed h hby) hentry hlive huri hfree
    refine ⟨⟨_, hmoved.arrives entry List.mem_cons_self, hlive, if_pos rfl, rfl, rfl⟩,
      fun hcollection below hbelow hother hpresent hstarts => ?_⟩
    have hdescendant : below ∈ c.descendants entry uri destination := by
      unfold State.descendants
      rw [if_pos hcollection]
      refine List.mem_filter.mpr ⟨hbelow, ?_⟩
      rw [hpresent, decide_eq_true hother, List.isPrefixOf_iff_prefix.mpr hstarts]
      rfl
    exact ⟨_, hmoved.arrives below (List.mem_cons_of_mem _ hdescendant), hpresent, if_neg hother, rfl, rfl⟩
  · have hseen := describe_seen hinv hstep (run_timed h hby)
    obtain ⟨entry, hentry, hlive, huri⟩ := hseen.found descriptor hdescriptor
    obtain ⟨row, hrow, hpresent, -, hsame, -⟩ | ⟨hnew, hnotes⟩ := hseen.rows entry hentry hlive
    · exact absurd (hsame.trans huri) (hfree row hrow hpresent)
    · exact ⟨entry, hentry, hlive, huri, hnotes,
        fun row hrow hid => absurd (hinv.fresh row hrow) (Nat.not_lt.mpr (hid ▸ hnew))⟩

def folder : Descriptor := ⟨"cloud://plans/".toList, true, "1"⟩

def leaf : Descriptor := ⟨"cloud://plans/a.txt".toList, false, "1"⟩

def archive : Descriptor := ⟨"cloud://archive/".toList, true, "1"⟩

theorem catalogue_converges_renamed : ∃ c, Keeps
    [.describe 1 2 [folder, leaf], .annotate leaf.uri "draft", .move 3 folder.uri archive false,
    .describe 4 5 [folder], .delete 6 archive.uri, .describe 3 7 [leaf]] c :=
  ⟨_, catalogue_converges (.cons ⟨rfl, rfl⟩ (.cons ⟨rfl, rfl⟩
    (.cons ⟨by decide +kernel, rfl⟩ (.cons ⟨rfl, rfl⟩ (.cons ⟨by decide +kernel, rfl⟩
    (.cons ⟨rfl, rfl⟩ (.nil _)))))))⟩

/-- A folder has been made again before the deletion of the former one is observed, which then leaves no
tombstone: a late listing of the former folder revives its file. -/
def forgotten : List Operation := [.describe 7 8 [folder], .delete 5 folder.uri, .describe 3 9 [leaf]]

theorem forgotten_deletion_revives : ¬ ∀ (operations : List Operation) (c : State), Steps Observes empty operations c →
    (∀ operation ∈ operations, operation.isMove = false) → Distinct operations → ∀ uri,
      ((∃ entry ∈ c.entries, entry.present = true ∧ entry.uri = uri) ↔ ∃ startedAt, described operations startedAt uri ∧
        ∀ earlier path, .delete earlier path ∈ operations → covers path uri = true → earlier < startedAt) := by
  intro hconverges
  have hrun : ∃ c, Steps Observes empty forgotten c ∧ ∃ entry ∈ c.entries, entry.present = true ∧
      entry.uri = leaf.uri :=
    ⟨_, .cons rfl (.cons rfl (.cons rfl (.nil _))), by decide +kernel⟩
  have hdescribed : ∀ startedAt uri, described forgotten startedAt uri → startedAt = 7 ∧
      uri = folder.uri ∨ startedAt = 3 ∧ uri = leaf.uri := by
    rintro startedAt uri ⟨seenAt, descriptors, hmem, descriptor, hdescriptor, rfl⟩
    simp only [forgotten, List.mem_cons, List.not_mem_nil, Operation.describe.injEq, reduceCtorEq,
      or_false, false_or] at hmem
    obtain ⟨rfl, -, rfl⟩ | ⟨rfl, -, rfl⟩ := hmem
    · exact .inl ⟨rfl, congrArg Descriptor.uri (List.mem_singleton.mp hdescriptor)⟩
    · exact .inr ⟨rfl, congrArg Descriptor.uri (List.mem_singleton.mp hdescriptor)⟩
  have hdistinct : Distinct forgotten := by
    intro startedAt uri hdelete path hpath
    simp only [forgotten, List.mem_cons, List.not_mem_nil, Operation.delete.injEq, reduceCtorEq,
      or_false, false_or] at hdelete
    obtain ⟨rfl, -⟩ | ⟨rfl, -⟩ := hdescribed startedAt path hpath <;> exact absurd hdelete.1 (by decide)
  obtain ⟨c, hsteps, hpresent⟩ := hrun
  obtain ⟨startedAt, hleaf, hafter⟩ :=
    (hconverges forgotten c hsteps (by decide +kernel) hdistinct leaf.uri).mp hpresent
  have hlater : 5 < startedAt := hafter 5 folder.uri (by decide +kernel) (by decide +kernel)
  obtain ⟨rfl, huri⟩ | ⟨rfl, -⟩ := hdescribed startedAt leaf.uri hleaf
  · -- Only the folder has been described since.
    exact absurd huri (by decide +kernel)
  · exact absurd hlater (by decide)

end Galaris.FileShare.Catalogue
