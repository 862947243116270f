import OpenGeoBase.Lib.Transition
import OpenGeoBase.Repo.InterestDispatch

/-!
# What the handling of an interest comes to

Any client can send the read handle any name. `Handled.Correct` says what should come of it: no
exception of the standard library gets out of `ReadHandle::onInterest`, no more than one packet is
put on the face, and this packet has the name of the interest, or this name and a segment component
behind it.

One packet at most is always put (`length_puts_onInterest`). The other two clauses fail in five
places, and `correct_handle_iff` says when they hold.

* `sendData` puts segment 0 when there is no segment with the number that was asked for. An interest
  is answered under its name if it has no segment component at its end, or that of a segment of the
  reply (`AsksFor`); an empty reply has a segment 0.
* `requestInsert` sends its reply first, and then cuts an address out of the name: behind the word,
  which may be the end of the text, and with a port that `stoi` may refuse (`NamesFrontEnd`).
* `readQuery` goes on after its empty reply when it has not found the query, which it looks for in
  the name without the last component, and `onInterest` in all of it (`FindsQuery`). With a
  component behind it, a query is found (`findsQuery_of_query`).
* The cache of `readQuery` is asked for a packet whose full name begins with the name of the
  interest. The name of this packet may be longer by more than the segment, or shorter by the
  digest. What is in the cache was put there by `sendData`, so its names end with a segment
  component; this is the invariant of the runs (`cachesSegments_run`).
* What is read under a name was stored under this name, in an encoding that has a name of its own
  (`FindsNamesake`).
-/

namespace OpenGeoBase

open Text AtomicCalls Collection Transition

/-! ### The names of the packets -/

section Names

variable {names : NameLibrary}

/-- The name of a packet on the face. -/
def Put.name : Put names → names.Name
  | .data stored => stored.name
  | .packet made => made.name

variable (names) in
/-- The name of the interest, or this name and a segment component behind it. -/
def Addressed (name name' : names.Name) : Prop :=
  name' = name ∨ ∃ c, names.isSegment c = true ∧ name' = name ++ [c]

/-- What the handling of an interest should come to. -/
structure Handled.Correct (name : names.Name) (handled : Handled names) : Prop where
  notThrown : ∀ e, handled.ending ≠ .threw e
  onePut : handled.puts.length ≤ 1
  addressed : ∀ put ∈ handled.puts, Addressed names name put.name

/-- A handling that puts one packet. -/
theorem Handled.correct_singleton_iff {name : names.Name} {put : Put names}
    {cached : List (Packet names)} {ending : Ending} :
    (Handled.mk [put] cached ending).Correct name ↔
      (∀ e, ending ≠ .threw e) ∧ Addressed names name put.name := by
  constructor
  · intro h
    exact ⟨h.notThrown, h.addressed put List.mem_cons_self⟩
  · rintro ⟨hending, hname⟩
    refine ⟨hending, le_rfl, fun put' hput => ?_⟩
    rwa [List.mem_singleton.mp hput]

/-- A handling that puts none. -/
theorem Handled.correct_nil_iff {name : names.Name} {cached : List (Packet names)}
    {ending : Ending} :
    (Handled.mk [] cached ending).Correct name ↔ ∀ e, ending ≠ .threw e := by
  constructor
  · intro h
    exact h.notThrown
  · intro hending
    exact ⟨hending, Nat.zero_le 1, by simp⟩

end Names

/-! ### Replies -/

section Replies

variable (names : NameLibrary)

/-- The interest has no segment component at its end, or that of a segment of the content; a
content that is empty has a segment 0. A longer one than a string can be is not sent. -/
def AsksFor (name : names.Name) (content : Str) : Prop :=
  content.length ≤ maxStringSize → ∀ c, name.getLast? = some c → names.isSegment c = true →
    ∃ i, c = names.fromSegment i ∧ (i = 0 ∨ i * MAX_SIZE_PACKET < content.length)

variable {names} {name : names.Name} {content : Str}

/-- A segment is there if its first character is. -/
theorem lt_segmentCount_iff {i : ℕ} :
    i < segmentCount content ↔ i * MAX_SIZE_PACKET < content.length := by
  rw [← not_le, segmentCount_le_iff, not_le]

/-- Without a name there is no reply, nor with more bytes than a string can have. -/
theorem sendReply_eq_stopped (h : name = [] ∨ maxStringSize < content.length) :
    sendReply names name content = ⟨[], [], .stopped⟩ := by
  unfold sendReply sendData
  rcases h with rfl | h
  · rfl
  · cases hname : names.withoutSegment name with
    | none => rfl
    | some x =>
      rw [Option.bind_eq_bind, Option.bind_some, if_pos h]

/-- Only the empty name has no last component. -/
theorem exists_withoutSegment (hne : name ≠ []) : ∃ x, names.withoutSegment name = some x := by
  unfold NameLibrary.withoutSegment
  rw [List.getLast?_eq_some_getLast hne]
  exact ⟨_, rfl⟩

/-- The name of a reply: that of the segment which `sendData` has chosen. -/
theorem sendReply_eq {x : names.Name} (hname : names.withoutSegment name = some x)
    (hlength : content.length ≤ maxStringSize) :
    ∃ packet cached, sendReply names name content = ⟨[.packet packet], cached, .returned⟩ ∧
      packet.name = segmentName names x (matchedIndex names x name (segmentCount content)) := by
  unfold sendReply sendData
  rw [hname, Option.bind_eq_bind, Option.bind_some, if_neg (not_lt.mpr hlength)]
  by_cases hzero : segmentCount content = 0
  · rw [if_pos hzero, hzero]
    exact ⟨_, _, rfl, rfl⟩
  · rw [if_neg hzero]
    exact ⟨_, _, rfl, rfl⟩

/-- A reply is at most one packet. -/
theorem length_puts_sendReply : (sendReply names name content).puts.length ≤ 1 := by
  unfold sendReply
  split
  · exact Nat.zero_le 1
  · exact le_rfl

/-- No exception comes out of a reply. -/
theorem ending_sendReply_ne (e : StdException) :
    (sendReply names name content).ending ≠ .threw e := by
  unfold sendReply
  split <;> simp

/-- To a name a reply is sent. -/
theorem ending_sendReply (hne : name ≠ []) (hlength : content.length ≤ maxStringSize) :
    (sendReply names name content).ending = .returned := by
  obtain ⟨x, hname⟩ := exists_withoutSegment hne
  obtain ⟨packet, cached, hreply, -⟩ := sendReply_eq hname hlength
  rw [hreply]

/-- The segment that is chosen is one of the content, or segment 0. -/
theorem matchedIndex_le (x : names.Name) :
    matchedIndex names x name (segmentCount content) = 0 ∨
      matchedIndex names x name (segmentCount content) * MAX_SIZE_PACKET < content.length := by
  rcases Nat.eq_zero_or_pos (segmentCount content) with hzero | hpos
  · left
    rw [hzero]
    rfl
  · right
    exact lt_segmentCount_iff.mp (matchedIndex_lt x name hpos)

/-- The segment that is found is one of the reply. -/
theorem matchedIndex_le_segmentCount {x : names.Name} :
    matchedIndex names x name (segmentCount content) ≤ segmentCount content := by
  rcases Nat.eq_zero_or_pos (segmentCount content) with hzero | hpos
  · rw [hzero]
    exact Nat.zero_le 0
  · exact (matchedIndex_lt x name hpos).le

/-- A segment that is there is chosen. -/
theorem matchedIndex_asked (hnames : names.Segmented) {x : names.Name} {i : ℕ}
    (hcount : segmentCount content < 2 ^ 64)
    (hi : i = 0 ∨ i * MAX_SIZE_PACKET < content.length) :
    matchedIndex names x (x ++ [names.fromSegment i]) (segmentCount content) = i := by
  rcases Nat.eq_zero_or_pos (segmentCount content) with hzero | hpos
  · have hempty : content.length = 0 := by
      have hle := segmentCount_le_iff.mp hzero.le
      rwa [Nat.zero_mul, Nat.le_zero] at hle
    rw [hzero]
    exact (hi.resolve_right (by omega)).symm
  · have hlt : i < segmentCount content := by
      rcases hi with rfl | hi
      · exact hpos
      · exact lt_segmentCount_iff.mpr hi
    exact matchedIndex_segmentName hnames x hcount hlt

/-- Two names of the same length: a segment in place of the last component. -/
theorem addressed_segmentName_iff {x : names.Name} {last : names.Component} {i : ℕ} :
    Addressed names (x ++ [last]) (segmentName names x i) ↔ last = names.fromSegment i := by
  constructor
  · rintro (h | ⟨c, -, h⟩)
    · exact (List.cons.inj (List.append_cancel_left h)).1.symm
    · have hlength := congrArg List.length h
      simp [segmentName] at hlength
  · rintro rfl
    exact Or.inl rfl

/-- **The name of a reply** is right exactly when the interest asks for a segment that there is. -/
theorem addressed_sendReply_iff (hnames : names.Segmented) :
    (∀ put ∈ (sendReply names name content).puts, Addressed names name put.name) ↔
      AsksFor names name content := by
  -- A content too long for a string is never replied.
  by_cases hlength : content.length ≤ maxStringSize
  swap
  · rw [sendReply_eq_stopped (Or.inr (not_le.mp hlength))]
    exact iff_of_true (by simp) fun h => absurd h hlength
  cases hlast : name.getLast? with
  | none =>
    rw [sendReply_eq_stopped (Or.inl (List.getLast?_eq_none_iff.mp hlast))]
    exact iff_of_true (by simp) fun _ c hc => by simp [hlast] at hc
  | some last =>
    have hcount : segmentCount content < 2 ^ 64 := segmentCount_lt_of_le hlength
    obtain ⟨x, rfl⟩ : ∃ x, name = x ++ [last] :=
      ⟨_, (List.dropLast_append_getLast? last hlast).symm⟩
    by_cases hsegment : names.isSegment last = true
    · -- the segment component is taken off, and the chosen one put in its place
      have hwithout : names.withoutSegment (x ++ [last]) = some x := by
        unfold NameLibrary.withoutSegment
        rw [hlast, Option.map_some, if_pos hsegment, List.dropLast_concat]
      obtain ⟨packet, cached, hreply, hpacket⟩ := sendReply_eq hwithout hlength
      rw [hreply, List.forall_mem_singleton]
      show Addressed names (x ++ [last]) packet.name ↔ _
      rw [hpacket, addressed_segmentName_iff]
      constructor
      · intro heq _ c hc _
        rw [hlast] at hc
        exact ⟨_, (Option.some.inj hc).symm.trans heq, matchedIndex_le x⟩
      · intro hasks
        obtain ⟨i, rfl, hi⟩ := hasks hlength last hlast hsegment
        rw [matchedIndex_asked hnames hcount hi]
    · -- nothing is taken off, and the chosen one is put behind the name
      have hwithout : names.withoutSegment (x ++ [last]) = some (x ++ [last]) := by
        unfold NameLibrary.withoutSegment
        rw [hlast, Option.map_some, if_neg hsegment]
      obtain ⟨packet, cached, hreply, hpacket⟩ := sendReply_eq hwithout hlength
      rw [hreply, List.forall_mem_singleton]
      show Addressed names (x ++ [last]) packet.name ↔ _
      rw [hpacket]
      refine iff_of_true (Or.inr ⟨_, ?_, rfl⟩) fun _ c hc hc' => ?_
      · exact hnames.isSegment_fromSegment _ (matchedIndex_le_segmentCount.trans_lt hcount)
      · rw [hlast] at hc
        exact absurd ((Option.some.inj hc) ▸ hc') hsegment

/-- A handling that comes to a reply, whatever comes after it. -/
theorem correct_sendReply_iff (hnames : names.Segmented) {ending : Ending} :
    ({ sendReply names name content with ending := ending } : Handled names).Correct name ↔
      AsksFor names name content ∧ ∀ e, ending ≠ .threw e := by
  rw [← addressed_sendReply_iff hnames]
  constructor
  · intro h
    exact ⟨h.addressed, h.notThrown⟩
  · rintro ⟨haddressed, hending⟩
    exact ⟨hending, length_puts_sendReply, haddressed⟩

end Replies

/-! ### The decoded name -/

section Decoding

variable {s w : Str}

/-- A word behind a slash is still there when the escapes are gone. -/
theorem slash_uriDecode (hw : '%' ∉ w) (h : '/' :: w <:+: s) : '/' :: w <:+: uriDecode s := by
  obtain ⟨before, after, rfl⟩ := h
  have hdecode : uriDecode (before ++ '/' :: w ++ after) =
      uriDecode before ++ '/' :: (w ++ uriDecode after) := by
    rw [List.append_assoc, List.cons_append, uriDecode_append_slash, uriDecode_append hw]
  refine ⟨uriDecode before, uriDecode after, ?_⟩
  rw [hdecode, List.append_assoc, List.cons_append]

/-- And so is that of a query, with its equals sign. -/
theorem query_uriDecode (h : "/QUERY%3D".toList <:+: s) : "/QUERY=".toList <:+: uriDecode s := by
  obtain ⟨before, after, rfl⟩ := h
  have hequals : uriDecode ("%3D".toList ++ after) = '=' :: uriDecode after := rfl
  refine ⟨uriDecode before, uriDecode after, ?_⟩
  have hword : before ++ "/QUERY%3D".toList ++ after =
      before ++ '/' :: ("QUERY".toList ++ ("%3D".toList ++ after)) := by
    simp
  rw [hword, uriDecode_append_slash, uriDecode_append (by decide), hequals]
  simp

end Decoding

/-! ### The requests to insert -/

section Cutting

variable {c : Char} {before after : Str}

/-- The first place of a character. -/
theorem find_singleton (h : c ∉ before) : find [c] (before ++ c :: after) = some before.length := by
  induction before with
  | nil => simp [find]
  | cons b before ih =>
    rw [List.mem_cons, not_or] at h
    rw [List.cons_append, find, if_neg (by simp [h.1]), ih h.2]
    rfl

/-- A text is cut at the first such character. -/
theorem cutAt_append (h : c ∉ before) : cutAt c (before ++ c :: after) = (before, after) := by
  unfold cutAt
  rw [find_singleton h]
  simp

/-- A text without such a character is cut into nothing. -/
theorem cutAt_of_not_mem {s : Str} (h : c ∉ s) : cutAt c s = ([], []) := by
  have hnone : find [c] s = none := by
    rw [find_eq_none_iff]
    exact fun hfound => h (hfound.subset List.mem_cons_self)
  unfold cutAt
  rw [hnone]

end Cutting

/-- If a host and a port stand before the first slash, with a colon between them, the port begins
with the numeral of an `int`. -/
def PortFits (url : Str) : Prop :=
  ∀ host port path, ':' ∉ host → '/' ∉ host ++ ':' :: port →
    url = (host ++ ':' :: port) ++ '/' :: path →
      ∃ n, ReadsInt port n ∧ -2 ^ 31 ≤ n ∧ n < 2 ^ 31

/-- Something follows the first `/INSERT_REQUEST` of the decoded name; what comes behind its first
character is the address of a front end whose port is an `int`, or has no port. -/
def NamesFrontEnd (decodeName : Str) : Prop :=
  ∃ pos, find "/INSERT_REQUEST".toList decodeName = some pos ∧
    pos + "/INSERT_REQUEST".toList.length < decodeName.length ∧
    PortFits (decodeName.drop (pos + "/INSERT_REQUEST".toList.length + 1))

/-- When the address of the front end can be cut out of a name. -/
theorem namesFrontEnd_iff {decodeName : Str} {pos : ℕ}
    (hpos : find "/INSERT_REQUEST".toList decodeName = some pos) :
    NamesFrontEnd decodeName ↔ pos + "/INSERT_REQUEST".toList.length < decodeName.length ∧
      PortFits (decodeName.drop (pos + "/INSERT_REQUEST".toList.length + 1)) := by
  constructor
  · rintro ⟨pos', hpos', h⟩
    rw [hpos] at hpos'
    rwa [Option.some.inj hpos']
  · intro h
    exact ⟨pos, hpos, h⟩

/-- **The port of an address** is read, unless there is one that is no `int`. -/
theorem exists_port_iff (url : Str) :
    (∃ fes_port, (if ':' ∈ (cutAt '/' url).1 then (stoi (cutAt ':' (cutAt '/' url).1).2).map some
      else Except.ok none) = .ok fes_port) ↔ PortFits url := by
  constructor
  -- A port that does not fit makes `stoi` throw,
  · rintro ⟨fes_port, h⟩ host port path hhost hslash rfl
    rw [cutAt_append hslash, if_pos (by simp), cutAt_append hhost] at h
    cases hport : stoi port with
    | error e =>
      rw [hport] at h
      exact absurd h (by simp [Except.map])
    | ok n => exact ⟨n, stoi_eq_ok_iff.mp hport⟩
  -- and without a slash or a colon there is no port to read.
  · intro h
    by_cases hslash : '/' ∈ url
    swap
    · rw [cutAt_of_not_mem hslash]
      exact ⟨none, rfl⟩
    obtain ⟨fes_url, path, rfl, hfes⟩ := List.eq_append_cons_of_mem hslash
    rw [cutAt_append hfes]
    by_cases hcolon : ':' ∈ fes_url
    swap
    · rw [if_neg hcolon]
      exact ⟨none, rfl⟩
    obtain ⟨host, port, rfl, hhost⟩ := List.eq_append_cons_of_mem hcolon
    obtain ⟨n, hn⟩ := h host port path hhost hfes rfl
    rw [if_pos hcolon, cutAt_append hhost, stoi_eq_ok_iff.mpr hn]
    exact ⟨some n, rfl⟩

/-- What has been found when an interest is taken for a request to insert. -/
theorem found_of_dispatch {uri : Str} (h : dispatch uri = .requestInsert) :
    "/INSERT_REQUEST".toList <:+: uri := by
  by_contra hnot
  unfold dispatch at h
  rw [find_eq_none_iff.mpr hnot, Option.isSome_none, if_neg Bool.false_ne_true] at h
  split_ifs at h

/-- The URI of the empty name is a slash, which is read. -/
theorem ne_nil_of_dispatch {names : NameLibrary} {name : names.Name}
    (hempty : names.toUri [] = ['/']) (h : dispatch (names.toUri name) ≠ .readData) :
    name ≠ [] := by
  rintro rfl
  rw [hempty] at h
  exact h (by decide)

section Requests

variable {lib : StorageLibrary} {ndn : ReadLibrary lib} {name : lib.names.Name} {db : Db}

variable (ndn db) in
/-- **A request to insert comes to its reply**, and an exception after it unless the name has an
address. -/
theorem run_requestInsert (hne : name ≠ [])
    (htag : "/INSERT_REQUEST".toList <:+: lib.names.toUri name) :
    ∃ ending, ((requestInsert lib ndn name).run db).1 =
        { sendReply lib.names name [] with ending := ending } ∧
      ((∀ e, ending ≠ .threw e) ↔ NamesFrontEnd (uriDecode (lib.names.toUri name))) := by
  have hfound : "/INSERT_REQUEST".toList <:+: uriDecode (lib.names.toUri name) :=
    slash_uriDecode (by decide) htag
  obtain ⟨pos, hpos⟩ := Option.ne_none_iff_exists'.mp fun hnone => find_eq_none_iff.mp hnone hfound
  have hreturned : ¬(sendReply lib.names name []).ending ≠ .returned :=
    not_not.mpr (ending_sendReply hne (Nat.zero_le maxStringSize))
  rw [namesFrontEnd_iff hpos]
  unfold requestInsert
  dsimp only
  rw [hpos, if_neg hreturned]
  dsimp only
  rcases Nat.lt_or_ge (pos + "/INSERT_REQUEST".toList.length)
    (uriDecode (lib.names.toUri name)).length with hrest | hend
  swap
  · -- the address would begin behind the end
    rw [substr_of_lt (Nat.lt_succ_of_le hend)]
    exact ⟨_, rfl, iff_of_false (fun h => h _ rfl) fun h => absurd h.1 (Nat.not_lt.mpr hend)⟩
  rw [substr_of_le hrest, and_iff_right hrest, ← exists_port_iff]
  dsimp only
  generalize (uriDecode (lib.names.toUri name)).drop
    (pos + "/INSERT_REQUEST".toList.length + 1) = url_string
  cases hport : (if ':' ∈ (cutAt '/' url_string).1 then
      (stoi (cutAt ':' (cutAt '/' url_string).1).2).map some else Except.ok none) with
  | error e => exact ⟨_, rfl, iff_of_false (fun h => h e rfl) (by simp)⟩
  | ok fes_port =>
    -- from here on nothing but the fetch and the insertion can fail
    dsimp only
    cases ndn.httpGet (cutAt ':' (cutAt '/' url_string).1).1 fes_port
        (if '/' ∈ url_string then '/' :: (cutAt '/' url_string).2 else []) with
    | none => exact ⟨_, rfl, iff_of_true (by simp) ⟨fes_port, rfl⟩⟩
    | some data_string =>
      dsimp only
      rw [Prog.run_bind, Prog.run_pure]
      refine ⟨_, rfl, iff_of_true (fun e => ?_) ⟨fes_port, rfl⟩⟩
      split <;> simp

end Requests

/-! ### Queries -/

section Queries

variable (lib : StorageLibrary) (ndn : ReadLibrary lib)

/-- A query is found in the name without its last component, unless one of the identifiers is
missing, for then it is not looked for. The name has no segment component. -/
def FindsQuery (name : lib.names.Name) : Prop :=
  calculateDataIdentifier lib name = [] ∨ calculateTenantIdentifier lib name = [] ∨
    "/QUERY=".toList <:+: uriDecode (lib.names.toUri name.dropLast)

/-- The text in reply to a query. -/
def queryText (db : Db) (name : lib.names.Name) : Str :=
  let decodeName := uriDecode (lib.names.toUri name.dropLast)
  let data_id := calculateDataIdentifier lib name
  let tenant_id := calculateTenantIdentifier lib name
  if data_id = [] ∨ tenant_id = [] then []
  else match find "/QUERY=".toList decodeName with
    | none => []
    | some pos =>
      match ndn.matchesQuery (replaceAll "\"geometry".toList "\"content.geometry".toList
        (eraseAll "/QUERY=".toList (decodeName.drop pos))) with
      | none => []
      | some isFound => queryReply ndn.referenceJson ((db.objectIndex.filter fun doc =>
          doc.database == tenant_id ++ INDEX_DB_SUFFIX && doc.collection == data_id &&
            isFound doc).map ObjectDoc.reference)

variable {lib ndn} {lruCache : lib.names.Name → Option (Packet lib.names)}
  {name x : lib.names.Name} {db : Db}

/-- What the cache has is put on the face as it is. -/
theorem run_readQuery_hit {packet : Packet lib.names} (h : lruCache name = some packet) :
    (readQuery lib ndn lruCache name).run db = (⟨[.packet packet], [], .returned⟩, db) := by
  unfold readQuery
  rw [h]
  rfl

variable (ndn db) in
/-- **A query that is not in the cache comes to its reply**, and an exception after it unless it is
found in the name. -/
theorem run_readQuery_miss (h : lruCache name = none)
    (hname : lib.names.withoutSegment name = some x) :
    ∃ ending, ((readQuery lib ndn lruCache name).run db).1 =
        { sendReply lib.names name (queryText lib ndn db x) with ending := ending } ∧
      ((∀ e, ending ≠ .threw e) ↔ FindsQuery lib x) := by
  unfold readQuery queryText FindsQuery
  rw [h, hname]
  dsimp only
  by_cases hid : calculateDataIdentifier lib x = [] ∨ calculateTenantIdentifier lib x = []
  · rw [if_pos hid, if_pos hid, ← or_assoc]
    exact ⟨_, rfl, iff_of_true ending_sendReply_ne (Or.inl hid)⟩
  rw [if_neg hid, if_neg hid, ← or_assoc, or_iff_right hid]
  -- The branch was taken for a keyword in the name; in the name without its last component it may
  -- be missing, and then `substr` throws.
  cases hfind : find "/QUERY=".toList (uriDecode (lib.names.toUri x.dropLast)) with
  | none =>
    refine ⟨_, rfl, iff_of_false (fun hending => hending _ rfl) ?_⟩
    exact find_eq_none_iff.mp hfind
  | some pos =>
    have hfound : "/QUERY=".toList <:+: uriDecode (lib.names.toUri x.dropLast) := by
      by_contra hnot
      rw [find_eq_none_iff.mpr hnot] at hfind
      exact absurd hfind (by simp)
    dsimp only
    cases ndn.matchesQuery (replaceAll "\"geometry".toList "\"content.geometry".toList
        (eraseAll "/QUERY=".toList ((uriDecode (lib.names.toUri x.dropLast)).drop pos))) with
    | none => exact ⟨_, rfl, iff_of_true ending_sendReply_ne hfound⟩
    | some isFound => exact ⟨_, rfl, iff_of_true ending_sendReply_ne hfound⟩

/-- A query with a component behind it is found: what `onInterest` looks for is what `readQuery`
looks for, before and after the escapes are gone. -/
theorem findsQuery_of_query (h : "/QUERY%3D".toList <:+: lib.names.toUri name.dropLast) :
    FindsQuery lib name :=
  Or.inr (Or.inr (query_uriDecode h))

end Queries

/-! ### The other branches -/

section Branches

variable {lib : StorageLibrary} {ndn : ReadLibrary lib} {threshold : ℤ}
  {sorts : ℕ → ℕ → CounterSort} {bound : ℕ} {name : lib.names.Name} {db : Db}

/-- The reply to a deletion has the name of the interest. -/
theorem correct_deleteInterestData :
    ((deleteInterestData lib threshold sorts bound name).run db).1.Correct name := by
  unfold deleteInterestData
  rw [Prog.run_bind, Prog.run_pure]
  split
  · exact Handled.correct_nil_iff.mpr (by simp)
  · exact Handled.correct_singleton_iff.mpr ⟨by simp, Or.inl rfl⟩

variable (lib ndn) in
/-- The first packet stored under the name of the interest has this name, or this name and a segment
component behind it. A collection has a name. -/
def FindsNamesake (db : Db) (name : lib.names.Name) : Prop :=
  calculateDataIdentifier lib name ≠ [] → ∀ doc data,
    db.dataPackets.find? (isStored lib name) = some doc →
      ndn.packets.wireDecode (base64_decode doc.data) = some data →
        Addressed lib.names name data.name

/-- **What is read** is named as the interest when the packet stored under this name is. -/
theorem correct_readInterestData_iff :
    ((readInterestData lib ndn name).run db).1.Correct name ↔ FindsNamesake lib ndn db name := by
  unfold readInterestData read FindsNamesake
  by_cases hid : calculateDataIdentifier lib name = []
  · rw [if_pos hid]
    exact iff_of_true (Handled.correct_nil_iff.mpr (by simp)) fun h => absurd hid h
  rw [if_neg hid, Prog.run_bind, Prog.run_bind, Prog.run_query, Prog.run_pure]
  -- Nothing is put if nothing is stored or it cannot be decoded; otherwise the packet is put under
  -- the name it carries.
  cases hfind : db.dataPackets.find? (isStored lib name) with
  | none =>
    exact iff_of_true (Handled.correct_nil_iff.mpr (by simp)) fun _ doc data h => absurd h (by simp)
  | some doc =>
    dsimp only
    rw [Prog.run_pure]
    dsimp only
    cases hdecode : ndn.packets.wireDecode (base64_decode doc.data) with
    | none =>
      refine iff_of_true (Handled.correct_nil_iff.mpr (by simp)) fun _ doc' data hdoc hdata => ?_
      obtain rfl := Option.some.inj hdoc
      rw [hdecode] at hdata
      exact absurd hdata (by simp)
    | some data =>
      rw [Option.map_some, Handled.correct_singleton_iff]
      constructor
      · rintro ⟨-, hname⟩ - doc' data' hdoc hdata
        obtain rfl := Option.some.inj hdoc
        rw [hdecode] at hdata
        obtain rfl := Option.some.inj hdata
        exact hname
      · intro h
        exact ⟨by simp, h hid doc data rfl hdecode⟩

end Branches

/-! ### Runs -/

/-- `InMemoryStorageLru`: what it finds among the packets that it holds. -/
structure CacheLibrary (names : NameLibrary) where
  find : List (Packet names) → names.Name → Option (Packet names)
  /-- `Data::getFullName`, the name with the digest of the packet. -/
  getFullName : Packet names → names.Name

/-- The documented behaviour of the library, on names and in its cache. -/
structure CacheLibrary.Documented {names : NameLibrary} (cache : CacheLibrary names) : Prop where
  segmented : names.Segmented
  toUri_nil : names.toUri [] = ['/']
  mem_of_find : ∀ {packets name packet}, cache.find packets name = some packet → packet ∈ packets
  begins_of_find : ∀ {packets name packet}, cache.find packets name = some packet →
    name <+: cache.getFullName packet
  exists_digest : ∀ packet, ∃ digest, cache.getFullName packet = packet.name ++ [digest]

section Runs

variable {lib : StorageLibrary} (ndn : ReadLibrary lib) (cache : CacheLibrary lib.names)

/-- The database, and the packets in the cache. -/
structure ReadState (names : NameLibrary) where
  db : Db
  lruCache : List (Packet names)

/-- An interest, or what other parts of the repository do to the database. -/
inductive ReadEvent (names : NameLibrary) where
  | onInterest (name : names.Name)
  | store

variable (threshold : ℤ) (reponame : Str)

/-- The handling of an interest. -/
def ReadState.handle (sorts : ℕ → ℕ → CounterSort) (bound : ℕ) (s : ReadState lib.names)
    (name : lib.names.Name) : Handled lib.names × Db :=
  (onInterest lib ndn threshold sorts bound (cache.find s.lruCache) reponame name).run s.db

/-- The events. The cache may drop what it holds. -/
inductive ReadStep : ReadState lib.names → ReadEvent lib.names → ReadState lib.names → Prop where
  | onInterest {s : ReadState lib.names} {name : lib.names.Name} {sorts : ℕ → ℕ → CounterSort}
      {bound : ℕ} {lruCache : List (Packet lib.names)}
      (hcache : ∀ packet ∈ lruCache, packet ∈ s.lruCache ∨
        packet ∈ (s.handle ndn cache threshold reponame sorts bound name).1.cached) :
    ReadStep s (.onInterest name)
      ⟨(s.handle ndn cache threshold reponame sorts bound name).2, lruCache⟩
  | store {s : ReadState lib.names} {db : Db} : ReadStep s .store ⟨db, s.lruCache⟩

/-- A handle, from its start on any database. -/
def readHandle : System (ReadState lib.names) (ReadEvent lib.names) where
  init s := s.lruCache = []
  step := ReadStep ndn cache threshold reponame

end Runs

/-! ### What is in the cache -/

section Cached

/-- A name that ends with a segment component. -/
def EndsInSegment (names : NameLibrary) (name : names.Name) : Prop :=
  ∃ x i, i < 2 ^ 64 ∧ name = segmentName names x i

variable {lib : StorageLibrary} {ndn : ReadLibrary lib} {cache : CacheLibrary lib.names}
  {threshold : ℤ} {sorts : ℕ → ℕ → CounterSort} {bound : ℕ} {reponame : Str}
  {lruCache : lib.names.Name → Option (Packet lib.names)} {name : lib.names.Name} {db : Db}

/-- What `sendData` puts in the cache are segments. -/
theorem endsInSegment_sendReply {names : NameLibrary} {name : names.Name} {content : Str} :
    ∀ packet ∈ (sendReply names name content).cached, EndsInSegment names packet.name := by
  intro packet hmem
  unfold sendReply at hmem
  cases hsend : sendData names name content with
  | none =>
    rw [hsend] at hmem
    exact absurd hmem (by simp)
  | some r =>
    rw [hsend] at hmem
    unfold sendData at hsend
    rw [Option.bind_eq_bind, Option.bind_eq_some_iff] at hsend
    obtain ⟨x, -, hsend⟩ := hsend
    -- Only a reply of several segments is cached, each under a name with its number.
    split at hsend
    · exact absurd hsend (by simp)
    · next hlength =>
      split at hsend
      · obtain rfl := Option.some.inj hsend
        exact absurd hmem (by simp)
      · obtain rfl := Option.some.inj hsend
        obtain ⟨i, hi, rfl⟩ := List.mem_map.mp hmem
        have hcount := segmentCount_lt_of_le (not_lt.mp hlength)
        exact ⟨x, i, (List.mem_range.mp hi).trans hcount, rfl⟩

variable (ndn threshold sorts bound reponame lruCache name db) in
/-- Whatever an interest is taken for, its handling comes to a reply, or to one packet at most and
nothing for the cache. -/
theorem onInterest_cases (hempty : lib.names.toUri [] = ['/']) :
    let handled :=
      ((onInterest lib ndn threshold sorts bound lruCache reponame name).run db).1
    (∃ content ending, handled = { sendReply lib.names name content with ending := ending }) ∨
      ∃ puts ending, puts.length ≤ 1 ∧ handled = ⟨puts, [], ending⟩ := by
  unfold onInterest
  -- Two branches reply with a text, the others with a stored packet or not at all.
  cases hbranch : dispatch (lib.names.toUri name) with
  | readQuery =>
    dsimp only
    cases hfind : lruCache name with
    | some packet =>
      rw [run_readQuery_hit hfind]
      exact Or.inr ⟨_, _, le_rfl, rfl⟩
    | none =>
      cases hname : lib.names.withoutSegment name with
      | none =>
        unfold readQuery
        rw [hfind, hname]
        exact Or.inr ⟨[], _, Nat.zero_le 1, rfl⟩
      | some x =>
        obtain ⟨ending, hrun, -⟩ := run_readQuery_miss ndn db hfind hname
        exact Or.inl ⟨_, ending, hrun⟩
  | requestInsert =>
    have hne : name ≠ [] := ne_nil_of_dispatch hempty (by simp [hbranch])
    obtain ⟨ending, hrun, -⟩ :=
      run_requestInsert ndn db hne (found_of_dispatch hbranch)
    exact Or.inl ⟨_, ending, hrun⟩
  | deleteData =>
    right
    dsimp only
    unfold deleteInterestData
    rw [Prog.run_bind, Prog.run_pure]
    split
    · exact ⟨[], _, Nat.zero_le 1, rfl⟩
    · exact ⟨_, _, le_rfl, rfl⟩
  | readVersion => exact Or.inl ⟨_, _, rfl⟩
  | readData =>
    right
    dsimp only
    unfold readInterestData
    rw [Prog.run_bind, Prog.run_pure]
    split
    · exact ⟨[], _, Nat.zero_le 1, rfl⟩
    · exact ⟨[], _, Nat.zero_le 1, rfl⟩
    · exact ⟨_, _, le_rfl, rfl⟩

/-- **One packet at most** is put on the face. -/
theorem length_puts_onInterest (hempty : lib.names.toUri [] = ['/']) :
    ((onInterest lib ndn threshold sorts bound lruCache reponame name).run db).1.puts.length ≤
      1 := by
  obtain ⟨content, ending, h⟩ | ⟨puts, ending, hputs, h⟩ :=
    onInterest_cases ndn threshold sorts bound reponame lruCache name db hempty
  · rw [h]
    exact length_puts_sendReply
  · rw [h]
    exact hputs

/-- No handling puts anything else there. -/
theorem endsInSegment_onInterest (hempty : lib.names.toUri [] = ['/']) :
    ∀ packet ∈ ((onInterest lib ndn threshold sorts bound lruCache reponame name).run db).1.cached,
      EndsInSegment lib.names packet.name := by
  obtain ⟨content, ending, h⟩ | ⟨puts, ending, -, h⟩ :=
    onInterest_cases ndn threshold sorts bound reponame lruCache name db hempty
  · rw [h]
    exact endsInSegment_sendReply
  · rw [h]
    exact List.forall_mem_nil _

/-- The packets in the cache have names that end with a segment component. -/
def CachesSegments (s : ReadState lib.names) : Prop :=
  ∀ packet ∈ s.lruCache, EndsInSegment lib.names packet.name

/-- Every step caches only names that end in a component. -/
theorem ReadStep.cachesSegments (hempty : lib.names.toUri [] = ['/'])
    {s s' : ReadState lib.names} {event : ReadEvent lib.names} (h : CachesSegments s)
    (hstep : ReadStep ndn cache threshold reponame s event s') : CachesSegments s' := by
  cases hstep with
  | onInterest hcache =>
    intro packet hmem
    rcases hcache packet hmem with hold | hnew
    · exact h packet hold
    · exact endsInSegment_onInterest hempty packet hnew
  | store => exact h

/-- **The invariant of the runs**: only segments are in the cache. -/
theorem cachesSegments_run (hempty : lib.names.toUri [] = ['/'])
    {history : List (ReadState lib.names × ReadEvent lib.names)} {s : ReadState lib.names}
    (hrun : Run (readHandle ndn cache threshold reponame) history s) : CachesSegments s := by
  refine hrun.invariant' (fun s hinit => ?_) fun s event s' h hstep => ?_
  · intro packet hmem
    rw [show s.lruCache = [] from hinit] at hmem
    exact absurd hmem (by simp)
  · exact ReadStep.cachesSegments hempty h hstep

/-- What is found in the cache is longer than the interest by the segment, or by nothing. -/
theorem addressed_found_iff (hcache : cache.Documented) {s : ReadState lib.names}
    (hs : CachesSegments s) {packet : Packet lib.names}
    (hfind : cache.find s.lruCache name = some packet) :
    Addressed lib.names name packet.name ↔
      name.length ≤ packet.name.length ∧ packet.name.length ≤ name.length + 1 := by
  constructor
  · rintro (h | ⟨c, -, h⟩)
    · rw [h]
      omega
    · rw [h, List.length_append, List.length_singleton]
      omega
  · rintro ⟨hle, hlength⟩
    obtain ⟨x, i, hi, hname⟩ := hs packet (hcache.mem_of_find hfind)
    obtain ⟨digest, hfull⟩ := hcache.exists_digest packet
    have hbegins := hcache.begins_of_find hfind
    rw [hfull] at hbegins
    -- the interest does not reach as far as the digest
    obtain ⟨rest, hrest⟩ := List.prefix_of_prefix_length_le hbegins (List.prefix_append _ _) hle
    rw [← hrest, List.length_append] at hlength
    rcases List.eq_nil_or_concat' rest with rfl | ⟨rest', c, rfl⟩
    · left
      rw [← hrest, List.append_nil]
    · obtain rfl : rest' = [] := by
        rw [List.length_append, List.length_singleton] at hlength
        exact List.length_eq_zero_iff.mp (by omega)
      right
      have hlast : c = lib.names.fromSegment i := by
        have hboth : name ++ ([] ++ [c]) = x ++ [lib.names.fromSegment i] := hrest.trans hname
        have htail := (List.append_inj' hboth rfl).2
        exact (List.cons.inj htail).1
      refine ⟨c, ?_, hrest.symm⟩
      rw [hlast]
      exact hcache.segmented.isSegment_fromSegment i hi

end Cached

/-! ### All interests -/

section Interests

variable {lib : StorageLibrary} (ndn : ReadLibrary lib) (cache : CacheLibrary lib.names)
  (reponame : Str)

/-- When an interest is handled as it should be, by what it is taken for. -/
def ReadState.Answers (s : ReadState lib.names) (name : lib.names.Name) : Prop :=
  match dispatch (lib.names.toUri name) with
  | .readQuery =>
    match cache.find s.lruCache name with
    | some packet =>
      name.length ≤ packet.name.length ∧ packet.name.length ≤ name.length + 1
    | none => ∀ x, lib.names.withoutSegment name = some x →
        AsksFor lib.names name (queryText lib ndn s.db x) ∧ FindsQuery lib x
  | .requestInsert =>
    AsksFor lib.names name [] ∧ NamesFrontEnd (uriDecode (lib.names.toUri name))
  | .deleteData => True
  | .readVersion => AsksFor lib.names name (versionReply reponame ndn.nameJson s.db)
  | .readData => FindsNamesake lib ndn s.db name

variable {ndn cache reponame} {threshold : ℤ} {name : lib.names.Name}
  {history : List (ReadState lib.names × ReadEvent lib.names)} {s : ReadState lib.names}

/-- **The handling of an interest, exactly.** In every state that a run reaches, whatever there is
in the database, an interest is handled as it should be if and only if its name asks for a segment
that there is, its query or its front end is where the handle looks for it, and what is found under
the name has this name. -/
theorem correct_handle_iff (hcache : cache.Documented)
    (hrun : Run (readHandle ndn cache threshold reponame) history s)
    (sorts : ℕ → ℕ → CounterSort) (bound : ℕ) (name : lib.names.Name) :
    (s.handle ndn cache threshold reponame sorts bound name).1.Correct name ↔
      s.Answers ndn cache reponame name := by
  have hs : CachesSegments s := cachesSegments_run hcache.toUri_nil hrun
  unfold ReadState.handle onInterest ReadState.Answers
  -- Each branch has its own condition, proved with the branch.
  cases hbranch : dispatch (lib.names.toUri name) with
  | readQuery =>
    dsimp only
    cases hfind : cache.find s.lruCache name with
    | some packet =>
      rw [run_readQuery_hit hfind]
      dsimp only
      rw [← addressed_found_iff hcache hs hfind, Handled.correct_singleton_iff]
      exact and_iff_right (by simp)
    | none =>
      cases hname : lib.names.withoutSegment name with
      | none =>
        unfold readQuery
        rw [hfind, hname]
        exact iff_of_true (Handled.correct_nil_iff.mpr (by simp)) fun x h => absurd h (by simp)
      | some x =>
        obtain ⟨ending, hhandled, hending⟩ :=
          run_readQuery_miss ndn s.db hfind hname
        rw [hhandled, correct_sendReply_iff hcache.segmented, hending]
        constructor
        · rintro h x' hx'
          rwa [← Option.some.inj hx']
        · intro h
          exact h x rfl
  | requestInsert =>
    dsimp only
    have hne : name ≠ [] := ne_nil_of_dispatch hcache.toUri_nil (by simp [hbranch])
    obtain ⟨ending, hhandled, hending⟩ :=
      run_requestInsert ndn s.db hne (found_of_dispatch hbranch)
    rw [hhandled, correct_sendReply_iff hcache.segmented, hending]
  | deleteData => exact iff_of_true correct_deleteInterestData trivial
  | readVersion =>
    dsimp only
    unfold readVersion
    rw [Prog.run_bind, Prog.run_query, Prog.run_pure]
    show ({ sendReply lib.names name _ with ending := _ } : Handled lib.names).Correct name ↔ _
    rw [correct_sendReply_iff hcache.segmented]
    exact and_iff_left ending_sendReply_ne
  | readData => exact correct_readInterestData_iff

end Interests

/-! ### Interests that any client can send -/

section Examples

private def digest : octetNames.Component := ([1] : List ℕ)

/-- A cache that looks at all its packets. -/
def wholeCache : CacheLibrary octetNames where
  find packets name := packets.find? fun packet => decide (name <+: packet.name ++ [digest])
  getFullName packet := packet.name ++ [digest]

/-- The cache of the example keeps what its documentation says. -/
private theorem documented_wholeCache : wholeCache.Documented where
  segmented := octetNames_segmented
  toUri_nil := rfl
  mem_of_find h := List.mem_of_find?_eq_some h
  begins_of_find h := by
    have hfound := List.find?_some h
    exact of_decide_eq_true hfound
  exists_digest _ := ⟨digest, rfl⟩

/-- What comes of an interest in this name, on an empty database. -/
private def handledAtStart (name : cityLibrary.names.Name) : Handled cityLibrary.names :=
  (ReadState.handle readLibrary wholeCache 1 "repo".toList (fun _ _ => .stable) 0 ⟨Db.empty, []⟩
    name).1

private theorem segmented_city : cityLibrary.names.Segmented := octetNames_segmented

private def octets (c : String) : List ℕ := c.toList.map Char.toNat

/-- `/OGB/test/cities/user/QUERY={}`, with nothing behind the query. -/
private def queryAtEnd : cityLibrary.names.Name :=
  ["OGB", "test", "cities", "user", "QUERY=\x7b\x7d"].map octets

/-- `/OGB/INSERT_REQUEST`, without an address. -/
private def insertAtEnd : cityLibrary.names.Name := ["OGB", "INSERT_REQUEST"].map octets

private theorem insertAtEnd_ne_nil : insertAtEnd ≠ [] := List.cons_ne_nil _ _

/-- `/OGB/GET_PREFIX`. -/
private def getPrefix : cityLibrary.names.Name := ["OGB", "GET_PREFIX"].map octets

/-- `/OGB/GET_PREFIX` with the segment number 1, which a short reply does not have. -/
private def secondSegment : cityLibrary.names.Name :=
  segmentName cityLibrary.names getPrefix 1

theorem correct_handle_iff_start :
    (handledAtStart getPrefix).Correct getPrefix ↔
      ReadState.Answers readLibrary wholeCache "repo".toList ⟨Db.empty, []⟩ getPrefix := by
  have hrun : Run (readHandle readLibrary wholeCache 1 "repo".toList) [] ⟨Db.empty, []⟩ :=
    .nil rfl
  exact correct_handle_iff documented_wholeCache hrun (fun _ _ => .stable) 0 getPrefix

/-- Two interests end the handle with an exception, and the third is answered under the name of
another segment. -/
theorem interests_not_correct :
    ¬(handledAtStart queryAtEnd).Correct queryAtEnd ∧
      ¬(handledAtStart insertAtEnd).Correct insertAtEnd ∧
        ¬(handledAtStart secondSegment).Correct secondSegment := by
  refine ⟨fun h => ?_, fun h => ?_, fun h => ?_⟩
  -- The keyword is cut off with the last component, so it is not found again,
  · have hending : (handledAtStart queryAtEnd).ending = .threw .out_of_range := by decide
    exact h.notThrown _ hending
  -- there is no address behind the keyword,
  · obtain ⟨ending, hhandled, hending⟩ :=
      run_requestInsert readLibrary Db.empty insertAtEnd_ne_nil (by decide)
    change ((requestInsert cityLibrary readLibrary insertAtEnd).run Db.empty).1.Correct _ at h
    rw [hhandled] at h
    have haddress := hending.mp ((correct_sendReply_iff segmented_city).mp h).2
    have hfind : find "/INSERT_REQUEST".toList (uriDecode (cityLibrary.names.toUri insertAtEnd)) =
        some 4 := by decide
    rw [namesFrontEnd_iff hfind] at haddress
    exact absurd haddress.1 (by decide)
  -- and a segment that is not there is answered with the first.
  · have haddressed := h.addressed
    change ∀ put ∈ (sendReply cityLibrary.names secondSegment
      (versionReply "repo".toList nameDocument Db.empty)).puts, _ at haddressed
    rw [addressed_sendReply_iff segmented_city] at haddressed
    obtain ⟨i, hi, hthere⟩ :=
      haddressed (by decide) (cityLibrary.names.fromSegment 1) rfl (by decide)
    have hshort : (versionReply "repo".toList nameDocument Db.empty).length ≤ MAX_SIZE_PACKET := by
      decide
    have hzero : i = 0 := by
      unfold MAX_SIZE_PACKET MAX_NDN_PACKET_SIZE at hthere hshort
      omega
    rw [hzero] at hi
    revert hi
    decide

end Examples

end OpenGeoBase
