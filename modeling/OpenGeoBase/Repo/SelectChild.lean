import OpenGeoBase.Lib.OrderedSet
import OpenGeoBase.Repo.RepoStorage
import Mathlib.Data.Prod.Lex

/-!
# The search of the index

The index finds an entry that satisfies an interest: the first one if the interest asks for the
leftmost child, and the first one of the last group of children that has one if it asks for the
rightmost child. To find the latter it goes through the groups from the last one to the first one,
an iterator `last` being at the end of the groups that are left, and stops when the entry before
`last` is the first one that carries the prefix.

If the first group has more than one entry, the entry before `last` is never the first one: when
nothing in the group satisfies the interest either, the search goes on before the entries that
carry the prefix, and off the container. Besides, an entry without a key locator has no hash, and
its hash is read all the same when the interest asks for a publisher. `find_correct_iff` says that
these two are all that can go wrong.
-/

namespace OpenGeoBase

open OrderedSet

/-- The canonical order of the components. -/
class CanonicalOrder (names : NameLibrary) extends LinearOrder names.Component where
  /-- `Component::getSuccessor`. -/
  getSuccessor : names.Component → names.Component
  getSuccessor_le_iff : ∀ a b, getSuccessor a ≤ b ↔ a < b

/-- An interest with all of its selectors; the child selector is negative when it is not set. -/
structure ChildInterest (names : NameLibrary) extends Interest names where
  childSelector : ℤ

/-- The set of the entries, in the order of their names. -/
structure IndexContainer (names : NameLibrary) [CanonicalOrder names] where
  entries : List (IndexEntry names)
  increasing : Increasing IndexEntry.m_name entries

/-- What a search does: the positions of its iterators, and what it returns. The result is `none`
when an iterator is moved off the container, or when a hash is read that is not there. -/
structure Search (names : NameLibrary) where
  positions : List ℕ
  result : Option (ℤ × names.Name)

/-! ### Components of octets -/

/-- The order of components of octets: by length first. -/
@[reducible] def octetOrder : LinearOrder (List ℕ) :=
  LinearOrder.lift' (fun octets => toLex (octets.length, octets)) fun _ _ h =>
    congrArg Prod.snd (toLex.injective h)

/-- Shorter components come first, then bytes decide. -/
theorem octetOrder_lt_iff (a b : List ℕ) :
    octetOrder.lt a b ↔ a.length < b.length ∨ a.length = b.length ∧ a < b :=
  Prod.Lex.toLex_lt_toLex

theorem octetOrder_le_iff (a b : List ℕ) :
    octetOrder.le a b ↔ a.length < b.length ∨ a.length = b.length ∧ a ≤ b :=
  Prod.Lex.toLex_le_toLex

/-- The next component of octets; the last octet is advanced. -/
def nextOctets (octets : List ℕ) : List ℕ :=
  match octets.getLast? with
  | none => [0]
  | some octet => octets.dropLast ++ [octet + 1]

/-- The successor of a component is the next one. -/
theorem nextOctets_le_iff (a b : List ℕ) : octetOrder.le (nextOctets a) b ↔ octetOrder.lt a b := by
  rw [octetOrder_lt_iff, octetOrder_le_iff]
  rcases List.eq_nil_or_concat a with rfl | ⟨p, octet, rfl⟩
  · cases b with
    | nil => simp [nextOctets]
    | cons c b =>
      simp only [nextOctets, List.getLast?_nil, List.length_cons, List.length_nil]
      cases b with
      | nil => simp [cons_le_cons_iff, Nat.eq_zero_or_pos, or_comm, eq_comm]
      | cons d b => simp
  -- The successor has the same length and a last byte more, so nothing of this length lies between.
  · have hnext : nextOctets (p.concat octet) = p ++ [octet + 1] := by simp [nextOctets]
    rw [hnext, List.concat_eq_append]
    have hlength : (p ++ [octet + 1]).length = (p ++ [octet]).length := by simp
    rw [hlength]
    refine or_congr_right (and_congr_right fun heq => ?_)
    have hsucc : ∀ c, octet + 1 ≤ c ↔ octet < c := fun c => Nat.succ_le_iff
    have hless : p ++ [octet] < p ++ [octet + 1] :=
      (lt_concat_iff hsucc le_rfl).mpr List.prefix_rfl
    constructor
    · exact hless.trans_le
    · intro hlt
      by_contra hnot
      have hpre := (lt_concat_iff hsucc hlt.le).mp (not_le.mp hnot)
      exact absurd (hpre.eq_of_length heq) hlt.ne

instance : CanonicalOrder octetNames where
  toLinearOrder := octetOrder
  getSuccessor := nextOctets
  getSuccessor_le_iff := nextOctets_le_iff

namespace IndexContainer

variable {names : NameLibrary} [CanonicalOrder names]

/-! ### The search -/

/-- `std::set::lower_bound`. -/
def lower_bound (c : IndexContainer names) (name : names.Name) : ℕ :=
  OrderedSet.lowerBound IndexEntry.m_name c.entries name

/-- `Name::getSuccessor` of a name that is not empty. -/
def getSuccessor (name : names.Name) : names.Name :=
  name.dropLast ++ (name.getLast?.map CanonicalOrder.getSuccessor).toList

/-- The loop of `selectChild` that looks for the leftmost child, over the entries from `it` on. -/
def leftmost (interest : Interest names) : List (IndexEntry names) → ℕ → Search names
  | [], it => ⟨[it], some (0, [])⟩
  | entry :: entries, it =>
    if ¬interest.name <+: entry.m_name then ⟨[it], some (0, [])⟩
    else
      match matchesSimpleSelectors interest entry with
      | none => ⟨[it], none⟩
      | some true => ⟨[it], some (entry.m_id, entry.m_name)⟩
      | some false =>
        let rest := leftmost interest entries (it + 1)
        ⟨it :: rest.positions, rest.result⟩

/-- `std::find_if` of an entry that satisfies the interest, among `count` entries. -/
def findIf (interest : Interest names) (c : IndexContainer names) : ℕ → ℕ → Option ℕ
  | 0, first => some first
  | count + 1, first => do
    let isMatch ← matchesSimpleSelectors interest (← c.entries[first]?)
    if isMatch then some first else findIf interest c count (first + 1)

/-- The loop of `selectChild` that looks for the rightmost child, for a number of iterations. -/
def rightmost (interest : Interest names) (c : IndexContainer names) (boundary : ℕ) :
    ℕ → ℕ → Search names
  | 0, _ => ⟨[], none⟩
  | _ + 1, 0 => ⟨[], none⟩
  | iterations + 1, prev + 1 =>
    let last := prev + 1
    match c.entries[prev]? with
    | none => ⟨[prev], none⟩
    | some entry =>
      if prev = boundary then
        ⟨[prev], (matchesSimpleSelectors interest entry).map fun isMatch =>
          if isMatch then (entry.m_id, entry.m_name) else (0, [])⟩
      else
        let first := c.lower_bound (entry.m_name.take (interest.name.length + 1))
        match findIf interest c (last - first) first with
        | none => ⟨[prev, first], none⟩
        | some found =>
          if found ≠ last then
            ⟨[prev, first, found], c.entries[found]?.map fun e => (e.m_id, e.m_name)⟩
          else
            let rest := rightmost interest c boundary iterations first
            ⟨prev :: first :: rest.positions, rest.result⟩

/-- `Index::selectChild`: the loop for the rightmost child lowers `last` in each iteration. -/
def selectChild (interest : ChildInterest names) (c : IndexContainer names) (startingPoint : ℕ) :
    Search names :=
  if interest.childSelector ≤ 0 then
    leftmost interest.toInterest (c.entries.drop startingPoint) startingPoint
  else
    let boundary := c.lower_bound interest.name
    if ¬c.entries[boundary]?.any fun e => decide (interest.name <+: e.m_name) then
      ⟨[boundary], some (0, [])⟩
    else
      let last :=
        if interest.name.length = 0 then c.entries.length
        else c.lower_bound (getSuccessor interest.name)
      rightmost interest.toInterest c boundary (c.entries.length + 1) last

/-- `Index::find` of an interest. -/
def find (interest : ChildInterest names) (c : IndexContainer names) : Search names :=
  let result := c.lower_bound interest.name
  if result ≠ c.entries.length then selectChild interest c result
  else ⟨[result], some (0, [])⟩

omit [CanonicalOrder names] in
/-- For the leftmost child the search is the one that the handle of the storage makes. -/
theorem result_leftmost (interest : Interest names) (entries : List (IndexEntry names)) (it : ℕ) :
    (leftmost interest entries it).result = Index.selectChild interest entries := by
  -- Both models look at the entries in the same order and stop at the same one.
  induction entries generalizing it with
  | nil => rfl
  | cons entry entries ih =>
    unfold leftmost Index.selectChild
    split
    · rfl
    · cases matchesSimpleSelectors interest entry with
      | none => rfl
      | some isMatch =>
        cases isMatch with
        | true => rfl
        | false => exact ih (it + 1)

/-- The two models of `Index::find` agree on interests for the leftmost child. -/
theorem result_find_of_leftmost {interest : ChildInterest names} (c : IndexContainer names)
    (h : interest.childSelector ≤ 0) (m_maxPackets m_size : ℕ) :
    (find interest c).result = Index.find (fun name name' => decide (name < name'))
      interest.toInterest ⟨c.entries, m_maxPackets, m_size⟩ := by
  -- The place `lower_bound` finds is where the names stop being smaller.
  have hdrop : c.entries.drop (c.lower_bound interest.name) =
      c.entries.dropWhile fun e => decide (e.m_name < interest.name) := by
    calc
      _ = (c.entries.takeWhile (fun e => decide (e.m_name < interest.name)) ++
          c.entries.dropWhile fun e => decide (e.m_name < interest.name)).drop
            (c.entries.takeWhile fun e => decide (e.m_name < interest.name)).length := by
        rw [List.takeWhile_append_dropWhile]
        unfold lower_bound OrderedSet.lowerBound
        congr!
      _ = _ := List.drop_left
  unfold find Index.find
  dsimp only
  rw [← hdrop]
  split
  · next hlength =>
    have hlt := (lowerBound_le_length _ _ _).lt_of_ne hlength
    rw [selectChild, if_pos h, result_leftmost]
    split
    · next hnil => rw [hnil, Index.selectChild]
    · rfl
  · next hlength => rw [not_not.mp hlength, List.drop_length]

/-! ### What is to be found -/

section Specification

variable (interest : ChildInterest names) (c : IndexContainer names)

/-- The entry satisfies the name and the selectors of the interest. -/
def Matches (e : IndexEntry names) : Prop :=
  matchesSimpleSelectors interest.toInterest e = some true

/-- Only the hash decides whether the entry satisfies the interest, and it has none. -/
def LacksHash (e : IndexEntry names) : Prop := matchesSimpleSelectors interest.toInterest e = none

/-- What the entries of a group of children share: the prefix and the next component. -/
def childGroup (e : IndexEntry names) : names.Name := e.m_name.take (interest.name.length + 1)

/-- The smallest entry that satisfies the interest. -/
def IsLeftmost (e : IndexEntry names) : Prop :=
  e ∈ c.entries ∧ Matches interest e ∧
    ∀ e' ∈ c.entries, Matches interest e' → e.m_name ≤ e'.m_name

/-- The smallest entry that satisfies the interest in the last group that has one. -/
def IsRightmost (e : IndexEntry names) : Prop :=
  e ∈ c.entries ∧ Matches interest e ∧
    ∀ e' ∈ c.entries, Matches interest e' →
      childGroup interest e' < childGroup interest e ∨
        childGroup interest e' = childGroup interest e ∧ e.m_name ≤ e'.m_name

/-- The entry that the interest asks for. -/
def IsSelected (e : IndexEntry names) : Prop :=
  if interest.childSelector ≤ 0 then IsLeftmost interest c e else IsRightmost interest c e

/-- A position that is not before the first entry that carries the prefix, and not after the
position that follows the last one. -/
def Within (p : ℕ) : Prop :=
  c.lower_bound interest.name ≤ p ∧ ∀ i < p, c.lower_bound interest.name ≤ i →
    ∃ e, c.entries[i]? = some e ∧ interest.name <+: e.m_name

/-- The search is right: it returns the entry that is asked for, or the empty result if there is
none, and does not leave the entries that carry the prefix. -/
def Correct : Prop :=
  (∃ r, (find interest c).result = some r ∧
    ((∃ e, IsSelected interest c e ∧ r = (e.m_id, e.m_name)) ∨
      (¬∃ e ∈ c.entries, Matches interest e) ∧ r = (0, []))) ∧
    ∀ p ∈ (find interest c).positions, Within interest c p

/-- The order in which the entries are gone through. -/
def Before (e e' : IndexEntry names) : Prop :=
  if interest.childSelector ≤ 0 then e.m_name < e'.m_name
  else childGroup interest e' < childGroup interest e ∨
    childGroup interest e' = childGroup interest e ∧ e.m_name < e'.m_name

/-- An entry without a hash comes before all that satisfy the interest. -/
def ReadsNoHash : Prop :=
  ∃ e ∈ c.entries, LacksHash interest e ∧
    ∀ e' ∈ c.entries, Matches interest e' → Before interest e e'

/-- The rightmost child is asked for, no entry satisfies the interest, and the first group of
children has more than one entry. -/
def RunsOff : Prop :=
  0 < interest.childSelector ∧ (¬∃ e ∈ c.entries, Matches interest e) ∧
    ∃ e ∈ c.entries, ∃ e' ∈ c.entries, e.m_name ≠ e'.m_name ∧
      interest.name <+: e.m_name ∧ interest.name <+: e'.m_name ∧
      childGroup interest e = childGroup interest e' ∧
      ∀ e'' ∈ c.entries, interest.name <+: e''.m_name →
        childGroup interest e ≤ childGroup interest e''

end Specification

/-! ### The entries that carry the prefix -/

section Carrying

variable {interest : ChildInterest names} {c : IndexContainer names} {e e' e'' : IndexEntry names}
  {i j k : ℕ} {name : names.Name}

/-- In front of the lower bound the names are smaller. -/
theorem lt_lower_bound (hi : c.entries[i]? = some e) (name : names.Name) :
    i < c.lower_bound name ↔ e.m_name < name :=
  lt_lowerBound_iff c.increasing hi name

theorem lower_bound_le_length (c : IndexContainer names) (name : names.Name) :
    c.lower_bound name ≤ c.entries.length :=
  lowerBound_le_length _ _ _

/-- An entry that carries the prefix does not come before the lower bound. -/
theorem lower_bound_le (hi : c.entries[i]? = some e) (h : name <+: e.m_name) :
    c.lower_bound name ≤ i := by
  by_contra hlt
  exact absurd (le_of_isPrefix h) (not_le.mpr ((lt_lower_bound hi name).mp (not_le.mp hlt)))

/-- The position after the entries that carry the prefix of the interest. -/
def endOf (interest : ChildInterest names) (c : IndexContainer names) : ℕ :=
  if interest.name.length = 0 then c.entries.length
  else c.lower_bound (getSuccessor interest.name)

/-- So is the end of what carries the name. -/
theorem endOf_le_length (interest : ChildInterest names) (c : IndexContainer names) :
    endOf interest c ≤ c.entries.length := by
  unfold endOf
  split
  · exact le_rfl
  · exact c.lower_bound_le_length _

/-- From the lower bound on, the entries that carry the prefix are those before the end. -/
theorem lt_endOf (hi : c.entries[i]? = some e) (h : c.lower_bound interest.name ≤ i) :
    i < endOf interest c ↔ interest.name <+: e.m_name := by
  have hle : interest.name ≤ e.m_name := by
    rw [← not_lt, ← lt_lower_bound hi]
    exact not_lt.mpr h
  unfold endOf
  split
  · next hnil =>
    rw [List.length_eq_zero_iff.mp hnil]
    exact iff_of_true (List.getElem?_eq_some_iff.mp hi).1 List.nil_prefix
  -- The successor of the name is the first name behind all that carry it.
  · next hne =>
    obtain ⟨p, a, hname⟩ := (List.eq_nil_or_concat interest.name).resolve_left fun hnil =>
      hne (List.length_eq_zero_iff.mpr hnil)
    rw [List.concat_eq_append] at hname
    rw [lt_lower_bound hi, hname]
    rw [hname] at hle
    have hsucc : getSuccessor (p ++ [a]) = p ++ [CanonicalOrder.getSuccessor a] := by
      simp [getSuccessor]
    rw [hsucc]
    exact lt_concat_iff (CanonicalOrder.getSuccessor_le_iff a) hle

/-- The entries between an entry that is not before the lower bound and one that carries the prefix
carry it as well. -/
theorem carries_of_le (hi : c.entries[i]? = some e) (hj : c.entries[j]? = some e') (hij : i ≤ j)
    (h : c.lower_bound name ≤ i) (hcarries : name <+: e'.m_name) : name <+: e.m_name := by
  have hle : name ≤ e.m_name := by
    rw [← not_lt, ← lt_lower_bound hi]
    exact not_lt.mpr h
  have hle' : e.m_name ≤ e'.m_name := by
    rcases hij.lt_or_eq with hlt | rfl
    · exact (lt_of_getElem? c.increasing hi hj hlt).le
    · rw [Option.some_inj.mp (hi.symm.trans hj)]
  exact prefix_of_le_of_le hle hle' hcarries

/-- The groups of children come in the order of the entries. -/
theorem childGroup_le (h : e.m_name ≤ e'.m_name) : childGroup interest e ≤ childGroup interest e' :=
  take_le_take h _

/-- The selectors do not rule out an entry that carries the prefix. -/
def Hits (interest : ChildInterest names) (e : IndexEntry names) : Prop :=
  matchesSimpleSelectors interest.toInterest e ≠ some false

omit [CanonicalOrder names] in
/-- An entry that matches hits the simple selectors. -/
theorem Matches.hits (h : Matches interest e) : Hits interest e := by
  rw [Hits, h]
  simp

omit [CanonicalOrder names] in
theorem LacksHash.hits (h : LacksHash interest e) : Hits interest e := by
  rw [Hits, h]
  simp

omit [CanonicalOrder names] in
theorem Hits.carries (h : Hits interest e) : interest.name <+: e.m_name := by
  by_contra hnot
  exact h (by simp [matchesSimpleSelectors, hnot])

/-- The search comes upon the entry first. -/
def IsFirst (interest : ChildInterest names) (c : IndexContainer names) (e : IndexEntry names) :
    Prop :=
  e ∈ c.entries ∧ Hits interest e ∧
    ∀ e' ∈ c.entries, Hits interest e' → e' = e ∨ Before interest e e'

/-- What a search does that ends at the first entry that the selectors do not rule out. -/
def EndsAt (interest : ChildInterest names) (c : IndexContainer names) (s : Search names)
    (e : IndexEntry names) : Prop :=
  IsFirst interest c e ∧
    s.result = (matchesSimpleSelectors interest.toInterest e).map fun _ => (e.m_id, e.m_name)

end Carrying

/-! ### The leftmost child -/

section Searches

variable {interest : ChildInterest names} {c : IndexContainer names} {e e' : IndexEntry names}

/-- The entries before a position carry the prefix and are ruled out by the selectors. -/
def Passed (interest : ChildInterest names) (c : IndexContainer names) (it : ℕ) : Prop :=
  ∀ i e, c.entries[i]? = some e → c.lower_bound interest.name ≤ i → i < it →
    interest.name <+: e.m_name ∧ ¬Hits interest e

/-- What was passed is within the entries that carry the name. -/
theorem Passed.within {it : ℕ} (h : Passed interest c it) (hlen : it ≤ c.entries.length)
    (hit : c.lower_bound interest.name ≤ it) : Within interest c it := by
  refine ⟨hit, fun i hi hle => ?_⟩
  have hget : c.entries[i]? = some (c.entries.get ⟨i, hi.trans_le hlen⟩) := by simp
  exact ⟨_, hget, (h i _ hget hle hi).1⟩

/-- An entry that is not ruled out is not among those that have been passed. -/
theorem Passed.le {it i : ℕ} (h : Passed interest c it) (hi : c.entries[i]? = some e)
    (hhits : Hits interest e) : it ≤ i := by
  by_contra hnot
  exact (h i e hi (lower_bound_le hi hhits.carries) (not_le.mp hnot)).2 hhits

/-- If the next one is not ruled out, it is the one that the search comes upon first. -/
theorem Passed.isFirst {it : ℕ} (hchild : interest.childSelector ≤ 0) (h : Passed interest c it)
    (hentry : c.entries[it]? = some e) (hhits : Hits interest e) : IsFirst interest c e := by
  refine ⟨List.mem_of_getElem? hentry, hhits, fun e' he' hhits' => ?_⟩
  obtain ⟨i, hi⟩ := List.mem_iff_getElem?.mp he'
  rcases (h.le hi hhits').eq_or_lt with rfl | hlater
  · exact .inl (Option.some_inj.mp (hi.symm.trans hentry))
  · right
    rw [Before, if_pos hchild]
    exact lt_of_getElem? c.increasing hentry hi hlater

/-- If it is ruled out, it has been passed as well. -/
theorem Passed.next {it : ℕ} (h : Passed interest c it) (hentry : c.entries[it]? = some e)
    (hcarries : interest.name <+: e.m_name) (hnot : ¬Hits interest e) :
    Passed interest c (it + 1) := by
  intro i e' hi hle hlt
  rcases (Nat.lt_succ_iff.mp hlt).lt_or_eq with hlt | rfl
  · exact h i e' hi hle hlt
  · obtain rfl := Option.some_inj.mp (hentry.symm.trans hi)
    exact ⟨hcarries, hnot⟩

/-- **The search for the leftmost child** ends at the first entry that the selectors do not rule
out, or at the end of those that carry the prefix. -/
theorem leftmost_cases (hchild : interest.childSelector ≤ 0) (entries : List (IndexEntry names)) :
    ∀ it, entries = c.entries.drop it → it ≤ c.entries.length →
      c.lower_bound interest.name ≤ it → Passed interest c it →
      (∀ p ∈ (leftmost interest.toInterest entries it).positions, Within interest c p) ∧
        ((∃ e, EndsAt interest c (leftmost interest.toInterest entries it) e) ∨
          (leftmost interest.toInterest entries it).result = some (0, []) ∧
            ∀ e ∈ c.entries, ¬Hits interest e) := by
  induction entries with
  | nil =>
    intro it hdrop hlen hit hpassed
    refine ⟨by simpa [leftmost] using hpassed.within hlen hit, .inr ⟨rfl, fun e he hhits => ?_⟩⟩
    obtain ⟨i, hi⟩ := List.mem_iff_getElem?.mp he
    have hend := List.drop_eq_nil_iff.mp hdrop.symm
    have hlt : i < it := (List.getElem?_eq_some_iff.mp hi).1.trans_le hend
    exact absurd (hpassed.le hi hhits) (not_le.mpr hlt)
  | cons entry entries ih =>
    intro it hdrop hlen hit hpassed
    have hentry : c.entries[it]? = some entry := by
      rw [← List.head?_drop, ← hdrop]
      rfl
    have hlt := (List.getElem?_eq_some_iff.mp hentry).1
    have hwithin := hpassed.within hlen hit
    -- The loop stops where the name is not carried any more; until then it stops at the first entry
    -- that hits.
    by_cases hcarries : interest.name <+: entry.m_name
    · cases hmatch : matchesSimpleSelectors interest.toInterest entry with
      | none =>
        simp only [leftmost, hcarries, hmatch, not_true, if_false]
        have hfirst := hpassed.isFirst hchild hentry (by simp [Hits, hmatch])
        refine ⟨by simpa using hwithin, .inl ⟨entry, hfirst, ?_⟩⟩
        rw [hmatch]
        rfl
      | some isMatch =>
        cases isMatch with
        | true =>
          simp only [leftmost, hcarries, hmatch, not_true, if_false]
          have hfirst := hpassed.isFirst hchild hentry (by simp [Hits, hmatch])
          refine ⟨by simpa using hwithin, .inl ⟨entry, hfirst, ?_⟩⟩
          rw [hmatch]
          rfl
        | false =>
          -- An entry that does not hit is passed.
          have hpassed' := hpassed.next hentry hcarries fun hhits => hhits hmatch
          have hdrop' : entries = c.entries.drop (it + 1) := by
            rw [← List.tail_drop, ← hdrop]
            rfl
          obtain ⟨hpositions, hrest⟩ := ih (it + 1) hdrop' hlt (hit.trans (Nat.le_succ _)) hpassed'
          simp only [leftmost, hcarries, hmatch, not_true, if_false]
          refine ⟨?_, hrest⟩
          intro p hp
          rcases List.mem_cons.mp hp with rfl | hp
          · exact hwithin
          · exact hpositions p hp
    · simp only [leftmost, hcarries, not_false_eq_true, if_true]
      refine ⟨by simpa using hwithin, .inr ⟨trivial, fun e he hhits => ?_⟩⟩
      obtain ⟨i, hi⟩ := List.mem_iff_getElem?.mp he
      exact hcarries (carries_of_le hentry hi (hpassed.le hi hhits) hit hhits.carries)

/-! ### The rightmost child -/

/-- `find_if` stops at the first entry that the selectors do not rule out, or at the end. -/
theorem findIf_cases (interest : ChildInterest names) (count first : ℕ)
    (hlen : first + count ≤ c.entries.length) :
    (∃ found e, first ≤ found ∧ found < first + count ∧ c.entries[found]? = some e ∧
      Hits interest e ∧
      (∀ i e', first ≤ i → i < found → c.entries[i]? = some e' → ¬Hits interest e') ∧
      findIf interest.toInterest c count first =
        (matchesSimpleSelectors interest.toInterest e).map fun _ => found) ∨
    (∀ i e', first ≤ i → i < first + count → c.entries[i]? = some e' → ¬Hits interest e') ∧
      findIf interest.toInterest c count first = some (first + count) := by
  induction count generalizing first with
  | zero =>
    refine .inr ⟨fun i e' hle hlt => ?_, rfl⟩
    exact absurd hle (not_le.mpr hlt)
  | succ count ih =>
    have hfirst : c.entries[first]? = some (c.entries.get ⟨first, by omega⟩) := by simp
    generalize c.entries.get ⟨first, by omega⟩ = entry at hfirst
    -- By induction on how many entries are left: the first of them hits, or the search goes on
    -- behind it.
    by_cases hmatch : matchesSimpleSelectors interest.toInterest entry = some false
    · have hstep : findIf interest.toInterest c (count + 1) first =
          findIf interest.toInterest c count (first + 1) := by
        simp [findIf, hfirst, hmatch]
      have hnot : ∀ e', c.entries[first]? = some e' → ¬Hits interest e' := by
        intro e' he' hhits
        obtain rfl := Option.some_inj.mp (hfirst.symm.trans he')
        exact hhits hmatch
      rw [hstep]
      rcases ih (first + 1) (by omega) with ⟨found, e, hle, hlt, he, hhits, hbefore, hresult⟩ |
        ⟨hnone, hresult⟩
      · refine .inl ⟨found, e, by omega, by omega, he, hhits, ?_, hresult⟩
        intro i e' hi hifound he'
        rcases hi.eq_or_lt with rfl | hi
        · exact hnot e' he'
        · exact hbefore i e' hi hifound he'
      · refine .inr ⟨?_, by rw [hresult, Nat.add_right_comm, Nat.add_assoc]⟩
        intro i e' hi hlast he'
        rcases hi.eq_or_lt with rfl | hi
        · exact hnot e' he'
        · exact hnone i e' hi (by omega) he'
    · refine .inl ⟨first, entry, le_rfl, by omega, hfirst, hmatch, ?_, ?_⟩
      · intro i e' hi hlt
        exact absurd hi (not_le.mpr hlt)
      · cases hcase : matchesSimpleSelectors interest.toInterest entry with
        | none => simp [findIf, hfirst, hcase]
        | some isMatch =>
          cases isMatch with
          | true => simp [findIf, hfirst, hcase]
          | false => exact absurd hcase hmatch

/-- `last` is at the end of a group of children, and the groups after it have been searched. -/
structure LeftOver (interest : ChildInterest names) (c : IndexContainer names) (last : ℕ) :
    Prop where
  boundary_lt : c.lower_bound interest.name < last
  le_length : last ≤ c.entries.length
  carries : ∀ i e, c.entries[i]? = some e → c.lower_bound interest.name ≤ i → i < last →
    interest.name <+: e.m_name
  searched : ∀ i e, c.entries[i]? = some e → last ≤ i → ¬Hits interest e
  apart : ∀ i e j e', c.entries[i]? = some e → c.entries[j]? = some e' → i < last → last ≤ j →
    interest.name <+: e'.m_name → childGroup interest e < childGroup interest e'

/-- If the boundary is next, it is alone in its group. -/
theorem LeftOver.not_runsOff (h : LeftOver interest c (c.lower_bound interest.name + 1)) :
    ¬RunsOff interest c := by
  rintro ⟨-, -, e, he, e', he', hne, hcarries, hcarries', hgroup, hleast⟩
  obtain ⟨i, hi⟩ := List.mem_iff_getElem?.mp he
  obtain ⟨i', hi'⟩ := List.mem_iff_getElem?.mp he'
  obtain ⟨b, hb⟩ : ∃ b, c.entries[c.lower_bound interest.name]? = some b :=
    ⟨_, List.getElem?_eq_getElem h.le_length⟩
  have hle : c.lower_bound interest.name ≤ i := lower_bound_le hi hcarries
  have hle' : c.lower_bound interest.name ≤ i' := lower_bound_le hi' hcarries'
  -- The least group would be that of the first entry, but only this entry is left, so two entries
  -- cannot be in it.
  have hboundary :=
    hleast b (List.mem_of_getElem? hb) (h.carries _ b hb le_rfl (Nat.lt_succ_self _))
  rcases hle.eq_or_lt with heq | hlt
  · rcases hle'.eq_or_lt with heq' | hlt'
    · subst heq
      rw [← heq', hi] at hi'
      exact hne (by rw [Option.some_inj.mp hi'])
    · have hlater := h.apart _ b i' e' hb hi' (Nat.lt_succ_self _) hlt' hcarries'
      rw [← hgroup] at hlater
      exact absurd hboundary (not_le.mpr hlater)
  · have hlater := h.apart _ b i e hb hi (Nat.lt_succ_self _) hlt hcarries
    exact absurd hboundary (not_le.mpr hlater)

/-- At the boundary the search goes on before the entries that carry the prefix. -/
theorem rightmost_lower_bound (interest : ChildInterest names) (c : IndexContainer names)
    (iterations boundary : ℕ) :
    (rightmost interest.toInterest c boundary iterations boundary).result = none ∨
      ∃ p ∈ (rightmost interest.toInterest c boundary iterations boundary).positions,
        p < boundary := by
  cases iterations with
  | zero => exact .inl rfl
  | succ iterations =>
    cases boundary with
    | zero => exact .inl rfl
    | succ prev =>
      -- The loop looks at the entry in front of the boundary, whatever it does next.
      refine .inr ⟨prev, ?_, Nat.lt_succ_self prev⟩
      unfold rightmost
      dsimp only
      split
      · exact List.mem_cons_self
      · split
        · exact List.mem_cons_self
        · split
          · exact List.mem_cons_self
          · split <;> exact List.mem_cons_self

section Group

variable {entry : IndexEntry names} {prev i : ℕ}

/-- An entry before the lower bound of a group is in an earlier group. -/
theorem childGroup_lt (hi : c.entries[i]? = some e)
    (h : i < c.lower_bound (childGroup interest entry)) :
    childGroup interest e < childGroup interest entry := by
  have hname : e.m_name < childGroup interest entry := (lt_lower_bound hi _).mp h
  exact (le_of_isPrefix (List.take_prefix _ _)).trans_lt hname

/-- An entry between the lower bound of its group and another one of the group is in the group. -/
theorem childGroup_eq (hprev : c.entries[prev]? = some entry) (hi : c.entries[i]? = some e)
    (h : c.lower_bound (childGroup interest entry) ≤ i) (hle : i ≤ prev) :
    childGroup interest e = childGroup interest entry := by
  -- The name lies between the group and the entry, and both begin with the group.
  have hname : childGroup interest entry ≤ e.m_name := by
    rw [← not_lt, ← lt_lower_bound hi]
    exact not_lt.mpr h
  have hname' : e.m_name ≤ entry.m_name := by
    rcases hle.eq_or_lt with rfl | hlt
    · rw [Option.some_inj.mp (hi.symm.trans hprev)]
    · exact (lt_of_getElem? c.increasing hi hprev hlt).le
  refine le_antisymm (childGroup_le hname') ?_
  have hcut : childGroup interest entry =
      (childGroup interest entry).take (interest.name.length + 1) := by
    simp [childGroup]
  rw [hcut]
  exact take_le_take hname _

/-- The group of an entry begins at it or in front of it. -/
theorem lower_bound_childGroup_le (hprev : c.entries[prev]? = some entry) :
    c.lower_bound (childGroup interest entry) ≤ prev := by
  by_contra hlt
  have hname := (lt_lower_bound hprev _).mp (not_le.mp hlt)
  exact absurd (le_of_isPrefix (List.take_prefix _ entry.m_name)) (not_le.mpr hname)

/-- The group of an entry begins behind the beginning of the interest's name. -/
theorem lower_bound_le_childGroup (hcarries : interest.name <+: entry.m_name) :
    c.lower_bound interest.name ≤ c.lower_bound (childGroup interest entry) := by
  by_contra hlt
  have hle := c.lower_bound_le_length interest.name
  obtain ⟨e, he⟩ : ∃ e, c.entries[c.lower_bound (childGroup interest entry)]? = some e :=
    ⟨_, List.getElem?_eq_getElem ((not_le.mp hlt).trans_le hle)⟩
  have hname : e.m_name < interest.name := (lt_lower_bound he _).mp (not_le.mp hlt)
  have hgroup : interest.name ≤ childGroup interest entry := by
    refine le_of_isPrefix ?_
    rw [childGroup, List.prefix_take_iff]
    exact ⟨hcarries, Nat.le_succ _⟩
  exact absurd ((lt_lower_bound he _).mpr (hname.trans_le hgroup)) (lt_irrefl _)

end Group

section Loop

variable {entry : IndexEntry names} {prev : ℕ}

/-- When a group has been searched, the groups before it are left. -/
theorem LeftOver.next (h : LeftOver interest c (prev + 1))
    (hprev : c.entries[prev]? = some entry)
    (hlt : c.lower_bound interest.name < c.lower_bound (childGroup interest entry))
    (hnone : ∀ i e, c.lower_bound (childGroup interest entry) ≤ i → i < prev + 1 →
      c.entries[i]? = some e → ¬Hits interest e) :
    LeftOver interest c (c.lower_bound (childGroup interest entry)) := by
  have hle : c.lower_bound (childGroup interest entry) ≤ prev := lower_bound_childGroup_le hprev
  refine ⟨hlt, c.lower_bound_le_length _, ?_, ?_, ?_⟩
  -- The group has been searched now,
  · intro i e hi hge hlast
    exact h.carries i e hi hge (hlast.trans_le (hle.trans (Nat.le_succ _)))
  · intro i e hi hge
    rcases Nat.lt_or_ge i (prev + 1) with hin | hafter
    · exact hnone i e hge hin hi
    · exact h.searched i e hi hafter
  -- and what is left has smaller groups.
  · intro i e j e' hi hj hlast hge hcarries
    rcases Nat.lt_or_ge j (prev + 1) with hin | hafter
    · rw [childGroup_eq hprev hj hge (Nat.lt_succ_iff.mp hin)]
      exact childGroup_lt hi hlast
    · exact h.apart i e j e' hi hj (hlast.trans_le (hle.trans (Nat.le_succ _))) hafter hcarries

/-- The first entry of the last group that the selectors do not rule out is what the search comes
upon first. -/
theorem LeftOver.isFirst (hchild : 0 < interest.childSelector) (h : LeftOver interest c (prev + 1))
    (hprev : c.entries[prev]? = some entry) {found : ℕ}
    (hle : c.lower_bound (childGroup interest entry) ≤ found) (hlt : found < prev + 1)
    (he : c.entries[found]? = some e) (hhits : Hits interest e)
    (hbefore : ∀ i e', c.lower_bound (childGroup interest entry) ≤ i → i < found →
      c.entries[i]? = some e' → ¬Hits interest e') :
    IsFirst interest c e := by
  refine ⟨List.mem_of_getElem? he, hhits, fun e' he' hhits' => ?_⟩
  obtain ⟨i, hi⟩ := List.mem_iff_getElem?.mp he'
  have hgroup := childGroup_eq hprev he hle (Nat.lt_succ_iff.mp hlt)
  have hlast : i < prev + 1 := by
    by_contra hnot
    exact h.searched i e' hi (not_lt.mp hnot) hhits'
  rw [Before, if_neg (not_le.mpr hchild), hgroup]
  -- An entry that hits is in a smaller group, or behind the one found in its group.
  rcases Nat.lt_or_ge i (c.lower_bound (childGroup interest entry)) with hearlier | hin
  · exact .inr (.inl (childGroup_lt hi hearlier))
  · rcases lt_trichotomy i found with hless | rfl | hmore
    · exact absurd hhits' (hbefore i e' hin hless hi)
    · exact .inl (Option.some_inj.mp (hi.symm.trans he))
    · have hgroup' := childGroup_eq hprev hi hin (Nat.lt_succ_iff.mp hlast)
      exact .inr (.inr ⟨hgroup', lt_of_getElem? c.increasing he hi hmore⟩)

/-- The positions that are reached while groups are left. -/
theorem LeftOver.within {last p : ℕ} (h : LeftOver interest c last)
    (hle : c.lower_bound interest.name ≤ p) (hlt : p ≤ last) : Within interest c p := by
  refine ⟨hle, fun i hi hge => ?_⟩
  have hlast : i < last := hi.trans_le hlt
  have hget : c.entries[i]? = some (c.entries.get ⟨i, hlast.trans_le h.le_length⟩) := by simp
  exact ⟨_, hget, h.carries i _ hget hge hlast⟩

end Loop

/-- What a search makes of the entries: it ends at the first one that the selectors do not rule out,
or it returns the empty result. -/
def Settles (interest : ChildInterest names) (c : IndexContainer names) (s : Search names) : Prop :=
  (∀ p ∈ s.positions, Within interest c p) ∧ ((∃ e, EndsAt interest c s e) ∨
    s.result = some (0, []) ∧ (∀ e ∈ c.entries, ¬Hits interest e) ∧ ¬RunsOff interest c)

/-- A search that leaves the entries that carry the prefix. -/
def Leaves (interest : ChildInterest names) (c : IndexContainer names) (s : Search names) : Prop :=
  (s.result = none ∨ ∃ p ∈ s.positions, ¬Within interest c p) ∧
    (∀ e ∈ c.entries, ¬Hits interest e) ∧ RunsOff interest c

/-- The first group has been searched, and has more than one entry. -/
theorem LeftOver.runsOff {entry : IndexEntry names} {prev : ℕ} (hchild : 0 < interest.childSelector)
    (h : LeftOver interest c (prev + 1)) (hprev : c.entries[prev]? = some entry)
    (hne : prev ≠ c.lower_bound interest.name)
    (hfirst : c.lower_bound (childGroup interest entry) = c.lower_bound interest.name)
    (hnone : ∀ e ∈ c.entries, ¬Hits interest e) : RunsOff interest c := by
  -- More than one entry is left in the group the name begins with, and the loop goes on in front of
  -- it.
  have hlt : c.lower_bound interest.name < prev :=
    (Nat.lt_succ_iff.mp h.boundary_lt).lt_of_ne hne.symm
  obtain ⟨b, hb⟩ : ∃ b, c.entries[c.lower_bound interest.name]? = some b :=
    ⟨_, List.getElem?_eq_getElem (h.boundary_lt.trans_le h.le_length)⟩
  refine ⟨hchild, fun ⟨e, he, hmatch⟩ => hnone e he hmatch.hits, b, List.mem_of_getElem? hb, entry,
    List.mem_of_getElem? hprev, (lt_of_getElem? c.increasing hb hprev hlt).ne,
    h.carries _ b hb le_rfl h.boundary_lt, h.carries _ entry hprev hlt.le (Nat.lt_succ_self prev),
    childGroup_eq hprev hb hfirst.le hlt.le, ?_⟩
  intro e he hcarries
  obtain ⟨i, hi⟩ := List.mem_iff_getElem?.mp he
  refine childGroup_le ?_
  rcases (lower_bound_le hi hcarries).eq_or_lt with heq | hlt
  · rw [heq, hi] at hb
    rw [Option.some_inj.mp hb]
  · exact (lt_of_getElem? c.increasing hb hi hlt).le

section Steps

variable {boundary iterations prev : ℕ} {entry : IndexEntry names}

/-- At the first entry the loop ends. -/
theorem rightmost_boundary (hboundary : c.entries[boundary]? = some entry) :
    rightmost interest.toInterest c boundary (iterations + 1) (boundary + 1) =
      ⟨[boundary], (matchesSimpleSelectors interest.toInterest entry).map fun isMatch =>
        if isMatch then (entry.m_id, entry.m_name) else (0, [])⟩ := by
  simp [rightmost, hboundary]

theorem rightmost_of_ne (hprev : c.entries[prev]? = some entry) (hne : prev ≠ boundary) :
    rightmost interest.toInterest c boundary (iterations + 1) (prev + 1) =
      match findIf interest.toInterest c
          (prev + 1 - c.lower_bound (childGroup interest entry))
          (c.lower_bound (childGroup interest entry)) with
      | none => ⟨[prev, c.lower_bound (childGroup interest entry)], none⟩
      | some found =>
        if found ≠ prev + 1 then
          ⟨[prev, c.lower_bound (childGroup interest entry), found],
            c.entries[found]?.map fun e => (e.m_id, e.m_name)⟩
        else
          ⟨prev :: c.lower_bound (childGroup interest entry) ::
            (rightmost interest.toInterest c boundary iterations
              (c.lower_bound (childGroup interest entry))).positions,
            (rightmost interest.toInterest c boundary iterations
              (c.lower_bound (childGroup interest entry))).result⟩ := by
  simp [rightmost, hprev, hne, childGroup]

/-- If the boundary is next, the search ends with it. -/
theorem LeftOver.settles_boundary (h : LeftOver interest c (c.lower_bound interest.name + 1))
    (iterations : ℕ) :
    Settles interest c (rightmost interest.toInterest c (c.lower_bound interest.name)
      (iterations + 1) (c.lower_bound interest.name + 1)) := by
  obtain ⟨entry, hentry⟩ : ∃ entry, c.entries[c.lower_bound interest.name]? = some entry :=
    ⟨_, List.getElem?_eq_getElem h.le_length⟩
  -- Only the entry at the boundary is left.
  have halone : ∀ e ∈ c.entries, Hits interest e → e = entry := by
    intro e he hhits
    obtain ⟨i, hi⟩ := List.mem_iff_getElem?.mp he
    have hlt : i < c.lower_bound interest.name + 1 := by
      by_contra hnot
      exact h.searched i e hi (not_lt.mp hnot) hhits
    have heq : i = c.lower_bound interest.name :=
      le_antisymm (Nat.lt_succ_iff.mp hlt) (lower_bound_le hi hhits.carries)
    rw [heq] at hi
    exact Option.some_inj.mp (hi.symm.trans hentry)
  rw [rightmost_boundary hentry]
  refine ⟨by simpa using h.within le_rfl (Nat.le_succ _), ?_⟩
  by_cases hhits : Hits interest entry
  · refine .inl ⟨entry, ⟨List.mem_of_getElem? hentry, hhits, ?_⟩, ?_⟩
    · exact fun e he hhits' => .inl (halone e he hhits')
    · cases hmatch : matchesSimpleSelectors interest.toInterest entry with
      | none => rfl
      | some isMatch =>
        cases isMatch with
        | true => rfl
        | false => exact absurd hmatch hhits
  · have hmatch : matchesSimpleSelectors interest.toInterest entry = some false :=
      not_not.mp hhits
    refine .inr ⟨by simp [hmatch], ?_, h.not_runsOff⟩
    intro e he hhits'
    exact hhits (halone e he hhits' ▸ hhits')

/-- The first position of the last group is one that may be reached. -/
theorem LeftOver.within_group (h : LeftOver interest c (prev + 1))
    (hprev : c.entries[prev]? = some entry) :
    c.lower_bound interest.name ≤ c.lower_bound (childGroup interest entry) ∧
      Within interest c prev ∧ Within interest c (c.lower_bound (childGroup interest entry)) := by
  have hge : c.lower_bound interest.name ≤ prev := Nat.lt_succ_iff.mp h.boundary_lt
  have hcarries : interest.name <+: entry.m_name :=
    h.carries prev entry hprev hge (Nat.lt_succ_self prev)
  have hgroup : c.lower_bound interest.name ≤ c.lower_bound (childGroup interest entry) :=
    lower_bound_le_childGroup hcarries
  have hle : c.lower_bound (childGroup interest entry) ≤ prev := lower_bound_childGroup_le hprev
  exact ⟨hgroup, h.within hge (Nat.le_succ prev), h.within hgroup (hle.trans (Nat.le_succ prev))⟩

/-- If an entry of the last group is not ruled out, the search ends there. -/
theorem LeftOver.settles_found (hchild : 0 < interest.childSelector)
    (h : LeftOver interest c (prev + 1)) (hprev : c.entries[prev]? = some entry)
    (hboundary : prev ≠ c.lower_bound interest.name) {found : ℕ}
    (hfirst : c.lower_bound (childGroup interest entry) ≤ found) (hlt : found < prev + 1)
    (he : c.entries[found]? = some e) (hhits : Hits interest e)
    (hbefore : ∀ i e', c.lower_bound (childGroup interest entry) ≤ i → i < found →
      c.entries[i]? = some e' → ¬Hits interest e')
    (hfind : findIf interest.toInterest c (prev + 1 - c.lower_bound (childGroup interest entry))
        (c.lower_bound (childGroup interest entry)) =
      (matchesSimpleSelectors interest.toInterest e).map fun _ => found) :
    Settles interest c (rightmost interest.toInterest c (c.lower_bound interest.name)
      (iterations + 1) (prev + 1)) := by
  have hisFirst := h.isFirst hchild hprev hfirst hlt he hhits hbefore
  obtain ⟨hgroup, hwithin, hwithin'⟩ := h.within_group hprev
  rw [rightmost_of_ne hprev hboundary, hfind]
  -- The entry that was found matches, or has no hash to compare with.
  cases hmatch : matchesSimpleSelectors interest.toInterest e with
  | none =>
    refine ⟨by simpa using ⟨hwithin, hwithin'⟩, .inl ⟨e, hisFirst, ?_⟩⟩
    rw [hmatch]
    rfl
  | some isMatch =>
    have hwithin'' := h.within (hgroup.trans hfirst) hlt.le
    simp only [Option.map_some, ne_eq, hlt.ne, not_false_eq_true, if_true, he]
    refine ⟨by simpa using ⟨hwithin, hwithin', hwithin''⟩, .inl ⟨e, hisFirst, ?_⟩⟩
    rw [hmatch]
    rfl

/-- If the last group is also the first one, nothing in it is left, and the boundary was not met,
the search goes on where no entry carries the prefix. -/
theorem LeftOver.leaves (hchild : 0 < interest.childSelector)
    (h : LeftOver interest c (prev + 1)) (hprev : c.entries[prev]? = some entry)
    (hboundary : prev ≠ c.lower_bound interest.name)
    (heq : c.lower_bound (childGroup interest entry) = c.lower_bound interest.name)
    (hnone : ∀ i e, c.lower_bound (childGroup interest entry) ≤ i → i < prev + 1 →
      c.entries[i]? = some e → ¬Hits interest e) :
    Leaves interest c (rightmost interest.toInterest c (c.lower_bound interest.name) iterations
      (c.lower_bound (childGroup interest entry))) := by
  -- Nothing hits at all, neither in the group nor in those searched before.
  have hnot : ∀ e ∈ c.entries, ¬Hits interest e := by
    intro e he hhits
    obtain ⟨i, hi⟩ := List.mem_iff_getElem?.mp he
    have hi' := lower_bound_le hi hhits.carries
    rcases Nat.lt_or_ge i (prev + 1) with hin | hafter
    · exact hnone i e (heq ▸ hi') hin hi hhits
    · exact h.searched i e hi hafter hhits
  refine ⟨?_, hnot, h.runsOff hchild hprev hboundary heq hnot⟩
  rw [heq]
  refine (rightmost_lower_bound interest c iterations _).imp_right ?_
  -- The next place looked at is in front of the boundary.
  rintro ⟨p, hp, hpb⟩
  exact ⟨p, hp, fun hin => absurd hin.1 (not_le.mpr hpb)⟩

end Steps

section Cons

variable {s : Search names} {p p' : ℕ}

/-- Two more positions at the beginning of a search. -/
theorem Settles.cons (h : Settles interest c s) (hp : Within interest c p)
    (hp' : Within interest c p') : Settles interest c ⟨p :: p' :: s.positions, s.result⟩ := by
  refine ⟨fun q hq => ?_, h.2⟩
  rcases List.mem_cons.mp hq with rfl | hq
  · exact hp
  · rcases List.mem_cons.mp hq with rfl | hq
    · exact hp'
    · exact h.1 q hq

/-- Leaving behind two places more does not change the result. -/
theorem Leaves.cons (h : Leaves interest c s) (p p' : ℕ) :
    Leaves interest c ⟨p :: p' :: s.positions, s.result⟩ := by
  refine ⟨h.1.imp_right ?_, h.2⟩
  rintro ⟨q, hq, hout⟩
  exact ⟨q, List.mem_cons_of_mem _ (List.mem_cons_of_mem _ hq), hout⟩

end Cons

/-- **The search for the rightmost child**, by the groups that are left: it settles, or leaves the
entries that carry the prefix. -/
theorem rightmost_cases (hchild : 0 < interest.childSelector) (iterations : ℕ) :
    ∀ last, last < iterations → LeftOver interest c last →
      Settles interest c (rightmost interest.toInterest c (c.lower_bound interest.name)
        iterations last) ∨
      Leaves interest c (rightmost interest.toInterest c (c.lower_bound interest.name)
        iterations last) := by
  induction iterations with
  | zero => exact fun last hlast => absurd hlast (Nat.not_lt_zero last)
  | succ iterations ih =>
    intro last hlast h
    cases last with
    | zero => exact absurd h.boundary_lt (Nat.not_lt_zero _)
    | succ prev =>
      by_cases hboundary : prev = c.lower_bound interest.name
      · rw [hboundary] at h ⊢
        exact .inl (h.settles_boundary iterations)
      obtain ⟨entry, hprev⟩ : ∃ entry, c.entries[prev]? = some entry :=
        ⟨_, List.getElem?_eq_getElem h.le_length⟩
      have hle : c.lower_bound (childGroup interest entry) ≤ prev :=
        lower_bound_childGroup_le hprev
      have hspan : c.lower_bound (childGroup interest entry) +
          (prev + 1 - c.lower_bound (childGroup interest entry)) = prev + 1 := by omega
      have hcases := findIf_cases interest
        (prev + 1 - c.lower_bound (childGroup interest entry))
          (c.lower_bound (childGroup interest entry)) (hspan.le.trans h.le_length)
      rw [hspan] at hcases
      obtain ⟨found, e, hfirst, hlt, he, hhits, hbefore, hfind⟩ | ⟨hnone, hfind⟩ := hcases
      · exact .inl (h.settles_found hchild hprev hboundary hfirst hlt he hhits hbefore hfind)
      -- nothing in the last group: the search goes on with the groups before it
      obtain ⟨hgroup, hwithin, hwithin'⟩ := h.within_group hprev
      rw [rightmost_of_ne hprev hboundary]
      simp only [hfind, ne_eq, not_true, if_false]
      rcases hgroup.eq_or_lt with heq | hlt
      · exact .inr ((h.leaves hchild hprev hboundary heq.symm hnone).cons _ _)
      · rcases ih _ (by omega) (h.next hprev hlt hnone) with hsettles | hleaves
        · exact .inl (hsettles.cons hwithin hwithin')
        · exact .inr (hleaves.cons _ _)

/-- Before the first iteration all groups are left. -/
theorem leftOver_endOf {boundary : IndexEntry names}
    (hboundary : c.entries[c.lower_bound interest.name]? = some boundary)
    (hcarries : interest.name <+: boundary.m_name) : LeftOver interest c (endOf interest c) := by
  refine ⟨(lt_endOf hboundary le_rfl).mpr hcarries, endOf_le_length interest c, ?_, ?_, ?_⟩
  · intro i e hi hge hlt
    exact (lt_endOf hi hge).mp hlt
  · intro i e hi hge hhits
    have hlt := (lt_endOf hi (lower_bound_le hi hhits.carries)).mpr hhits.carries
    exact absurd hge (not_le.mpr hlt)
  · intro i e j e' hi hj hlt hge hcarries'
    have hlt' := (lt_endOf hj (lower_bound_le hj hcarries')).mpr hcarries'
    exact absurd hge (not_le.mpr hlt')

/-- A search settles, or leaves the entries that carry the prefix. -/
theorem find_cases (interest : ChildInterest names) (c : IndexContainer names) :
    Settles interest c (find interest c) ∨ Leaves interest c (find interest c) := by
  have hruns : interest.childSelector ≤ 0 → ¬RunsOff interest c :=
    fun hle hruns => absurd hruns.1 (not_lt.mpr hle)
  have hwithin : Within interest c (c.lower_bound interest.name) :=
    ⟨le_rfl, fun i hi hge => absurd hge (not_le.mpr hi)⟩
  -- Without an entry at the lower bound that carries the prefix there is none at all.
  have hempty : (∀ e, c.entries[c.lower_bound interest.name]? = some e →
      ¬interest.name <+: e.m_name) → ∀ e ∈ c.entries, ¬interest.name <+: e.m_name := by
    intro hnot e he hcarries
    obtain ⟨i, hi⟩ := List.mem_iff_getElem?.mp he
    have hle := lower_bound_le hi hcarries
    have hlt := hle.trans_lt (List.getElem?_eq_some_iff.mp hi).1
    obtain ⟨b, hb⟩ : ∃ b, c.entries[c.lower_bound interest.name]? = some b :=
      ⟨_, List.getElem?_eq_getElem hlt⟩
    exact hnot b hb (carries_of_le hb hi hle le_rfl hcarries)
  have hnothing : (∀ e ∈ c.entries, ¬interest.name <+: e.m_name) →
      Settles interest c ⟨[c.lower_bound interest.name], some (0, [])⟩ := by
    intro hnot
    refine ⟨by simpa using hwithin, .inr ⟨rfl, fun e he hhits => hnot e he hhits.carries, ?_⟩⟩
    rintro ⟨-, -, e, he, -, -, -, hcarries, -⟩
    exact hnot e he hcarries
  unfold find
  dsimp only
  split
  · next hlength =>
    have hlt := (c.lower_bound_le_length interest.name).lt_of_ne hlength
    obtain ⟨boundary, hb⟩ : ∃ b, c.entries[c.lower_bound interest.name]? = some b :=
      ⟨_, List.getElem?_eq_getElem hlt⟩
    unfold selectChild
    dsimp only
    split
    · next hchild =>
      obtain ⟨hpositions, hresult⟩ := leftmost_cases hchild _ (c.lower_bound interest.name) rfl
        hlt.le le_rfl fun i e _ hge hlt => absurd hge (not_le.mpr hlt)
      exact .inl ⟨hpositions, hresult.imp_right fun h => ⟨h.1, h.2, hruns hchild⟩⟩
    · next hchild =>
      split
      · next hnot =>
        refine .inl (hnothing (hempty fun e he hcarries => hnot ?_))
        rw [he]
        simpa using hcarries
      · next hcarries =>
        rw [hb] at hcarries
        have hleft := leftOver_endOf hb (by simpa using hcarries)
        exact rightmost_cases (not_le.mp hchild) _ (endOf interest c)
          (Nat.lt_succ_iff.mpr (endOf_le_length interest c)) hleft
  · next hlength =>
    refine .inl (hnothing (hempty fun e he => ?_))
    rw [not_not.mp hlength, List.getElem?_length] at he
    exact absurd he (by simp)

end Searches

/-! ### When the search is right -/

section Main

variable {interest : ChildInterest names} {c : IndexContainer names} {e e' : IndexEntry names}

/-- No two entries come before each other. -/
theorem Before.asymm (h : Before interest e e') : ¬Before interest e' e := by
  by_cases hchild : interest.childSelector ≤ 0
  · rw [Before, if_pos hchild] at h ⊢
    exact lt_asymm h
  · rw [Before, if_neg hchild] at h ⊢
    rintro (hlt' | ⟨heq', hlt'⟩)
    · rcases h with hlt | ⟨heq, -⟩
      · exact lt_asymm hlt hlt'
      · exact absurd heq hlt'.ne'
    · rcases h with hlt | ⟨-, hlt⟩
      · exact absurd heq' hlt.ne'
      · exact lt_asymm hlt hlt'

omit [CanonicalOrder names] in
/-- An entry that hits matches or lacks its hash. -/
theorem Hits.matches_or (h : Hits interest e) : Matches interest e ∨ LacksHash interest e := by
  unfold Hits at h
  unfold Matches LacksHash
  cases hmatch : matchesSimpleSelectors interest.toInterest e with
  | none => exact .inr rfl
  | some isMatch =>
    cases isMatch with
    | true => exact .inl rfl
    | false => exact absurd hmatch h

/-- What the search comes upon first is what is asked for, if it satisfies the interest. -/
theorem IsFirst.isSelected (h : IsFirst interest c e) (hmatch : Matches interest e) :
    IsSelected interest c e := by
  obtain ⟨he, -, hfirst⟩ := h
  unfold IsSelected
  unfold Before at hfirst
  -- Leftmost, the smallest name is selected; rightmost, the smallest of the last group.
  split
  · next hchild =>
    refine ⟨he, hmatch, fun e' he' hmatch' => ?_⟩
    rcases hfirst e' he' hmatch'.hits with rfl | hbefore
    · exact le_rfl
    · rw [if_pos hchild] at hbefore
      exact hbefore.le
  · next hchild =>
    refine ⟨he, hmatch, fun e' he' hmatch' => ?_⟩
    rcases hfirst e' he' hmatch'.hits with rfl | hbefore
    · exact .inr ⟨rfl, le_rfl⟩
    · rw [if_neg hchild] at hbefore
      exact hbefore.imp_right fun h => ⟨h.1, h.2.le⟩

/-- No entry without a hash comes before one that satisfies the interest and is come upon first. -/
theorem IsFirst.not_readsNoHash (h : IsFirst interest c e) (hmatch : Matches interest e) :
    ¬ReadsNoHash interest c := by
  rintro ⟨e', he', hlacks, hbefore⟩
  have hearlier : Before interest e' e := hbefore e h.1 hmatch
  rcases h.2.2 e' he' hlacks.hits with rfl | hlater
  · exact hearlier.asymm hearlier
  · exact hearlier.asymm hlater

/-- If the first entry lacks its hash none was read. -/
theorem IsFirst.readsNoHash (h : IsFirst interest c e) (hlacks : LacksHash interest e) :
    ReadsNoHash interest c := by
  refine ⟨e, h.1, hlacks, fun e' he' hmatch => ?_⟩
  rcases h.2.2 e' he' hmatch.hits with rfl | hbefore
  · rw [LacksHash, hmatch] at hlacks
    exact absurd hlacks (by simp)
  · exact hbefore

/-- **The search of the index.** For every index and every interest, the search returns the entry
that is asked for, or the empty result if there is none, and does not leave the entries that carry
the prefix, if and only if no entry without a hash comes before all that satisfy the interest, and
it is not the case that the rightmost child is asked for, no entry satisfies the interest, and the
first group of children has more than one entry. -/
theorem correct_iff (interest : ChildInterest names) (c : IndexContainer names) :
    Correct interest c ↔ ¬ReadsNoHash interest c ∧ ¬RunsOff interest c := by
  -- The search settles on an entry, finds none, or leaves the entries that carry the name.
  rcases find_cases interest c with ⟨hpositions, ⟨e, hfirst, hresult⟩ | ⟨hresult, hnone, hruns⟩⟩ |
    ⟨hleaves, -, hruns⟩
  · rcases hfirst.2.1.matches_or with hmatch | hlacks
    · refine iff_of_true ⟨⟨(e.m_id, e.m_name), ?_, .inl ⟨e, hfirst.isSelected hmatch, rfl⟩⟩,
        hpositions⟩ ⟨hfirst.not_readsNoHash hmatch, fun hruns => hruns.2.1 ⟨e, hfirst.1, hmatch⟩⟩
      rw [hresult, hmatch]
      rfl
    · refine iff_of_false ?_ fun h => h.1 (hfirst.readsNoHash hlacks)
      rintro ⟨⟨r, hr, -⟩, -⟩
      rw [hresult, hlacks] at hr
      exact absurd hr (by simp)
  · refine iff_of_true ⟨⟨(0, []), hresult, .inr ⟨?_, rfl⟩⟩, hpositions⟩ ⟨?_, hruns⟩
    · rintro ⟨e, he, hmatch⟩
      exact hnone e he hmatch.hits
    · rintro ⟨e, he, hlacks, -⟩
      exact hnone e he hlacks.hits
  · refine iff_of_false ?_ fun h => h.2 hruns
    rintro ⟨⟨r, hr, -⟩, hwithin⟩
    rcases hleaves with hnone | ⟨p, hp, hnot⟩
    · rw [hnone] at hr
      exact absurd hr (by simp)
    · exact hnot (hwithin p hp)

/-- Two packets whose names differ in the last component only. -/
def twoPackets : IndexContainer octetNames where
  entries := [⟨[[97], [120], [1]], none, 1⟩, ⟨[[97], [120], [2]], none, 2⟩]
  increasing := by
    unfold Increasing
    decide

/-- The rightmost child is asked for, of one component at most. -/
def oneComponent : ChildInterest octetNames := ⟨⟨⟨-1, 1, none, none⟩, [[97]]⟩, 1⟩

/-- The search takes the first entry for the end of the groups that are left, and then the position
before it. -/
theorem twoPackets_not_correct : ¬Correct oneComponent twoPackets := by
  rintro ⟨⟨r, hr, -⟩, -⟩
  have hnone : (find oneComponent twoPackets).result = none := by decide
  rw [hnone] at hr
  exact absurd hr (by simp)

/-- When the search is right and no entry has an empty name, the result is empty exactly when no
entry satisfies the interest. -/
theorem Correct.empty_iff (h : Correct interest c) (hnames : ∀ e ∈ c.entries, e.m_name ≠ []) :
    (find interest c).result = some (0, []) ↔ ¬∃ e ∈ c.entries, Matches interest e := by
  obtain ⟨⟨r, hr, hfound | ⟨hnone, hempty⟩⟩, -⟩ := h
  · obtain ⟨e, hselected, rfl⟩ := hfound
    -- A name that was found is not empty, so the answer with the empty name says that nothing
    -- matches.
    have hmem : e ∈ c.entries ∧ Matches interest e := by
      unfold IsSelected at hselected
      split at hselected
      · exact ⟨hselected.1, hselected.2.1⟩
      · exact ⟨hselected.1, hselected.2.1⟩
    refine iff_of_false ?_ (not_not.mpr ⟨e, hmem⟩)
    rw [hr]
    intro heq
    exact hnames e hmem.1 (congrArg Prod.snd (Option.some_inj.mp heq))
  · rw [hempty] at hr
    exact iff_of_true hr hnone

end Main

end IndexContainer

end OpenGeoBase
