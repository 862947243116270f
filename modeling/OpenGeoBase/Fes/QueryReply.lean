import OpenGeoBase.Fes.ContentObject
import OpenGeoBase.Repo.InterestDispatch
import Mathlib.Data.Finset.Basic

/-!
# The reply to a query, sent and read

The read handle joins the documents of the references it has found, takes what surrounds them out
of the text, and sends the rest in segments; there is one NUL byte to send for an empty text. The
front end takes the quotes out of each text it has fetched, leaves texts of less than three
characters alone, and cuts the others at their commas.

The format stands nowhere but in these operations. They agree on references that hold none of the
characters that have a meaning in it: the front end gets the references, of all repositories
together, and nothing else (`resultNames_replies`).
-/

namespace OpenGeoBase

open Text

/-! ### The reply -/

/-- The contents of the packets of `ReadHandle::sendData`. -/
def replySegments (content : Str) : List Str :=
  if segmentCount content = 0 then [[Char.ofNat 0]]
  else (List.range (segmentCount content)).map (segmentData content)

/-- They are the contents of what is put on the face, and of what is put in the cache. -/
theorem replySegments_of_sendData {names : NameLibrary} {nameOrig : names.Name} {content : Str}
    {data : Packet names} {cached : List (Packet names)}
    (h : sendData names nameOrig content = some (data, cached)) :
    data.content ∈ replySegments content ∧
      (content ≠ [] → cached.map Packet.content = replySegments content) := by
  unfold sendData at h
  rw [Option.bind_eq_bind, Option.bind_eq_some_iff] at h
  obtain ⟨name, -, h⟩ := h
  unfold replySegments
  split at h
  · exact absurd h (by simp)
  · split at h
    · next hzero =>
      obtain ⟨rfl, -⟩ := Prod.mk.inj (Option.some.inj h)
      rw [if_pos hzero]
      refine ⟨List.mem_singleton_self _, fun hne => ?_⟩
      exact absurd hzero (segmentCount_pos hne).ne'
    · next hzero =>
      obtain ⟨rfl, rfl⟩ := Prod.mk.inj (Option.some.inj h)
      rw [if_neg hzero]
      refine ⟨List.mem_map.mpr ⟨_, List.mem_range.mpr ?_, rfl⟩, fun _ => ?_⟩
      · exact matchedIndex_lt name nameOrig (Nat.pos_of_ne_zero hzero)
      · unfold dataVector
        rw [List.map_map]
        rfl

/-- The segments of a reply, put together. -/
def replyBytes (content : Str) : Str := (replySegments content).flatten

/-- Nothing is answered with one zero byte. -/
theorem replyBytes_nil : replyBytes [] = [Char.ofNat 0] := by
  have hzero : segmentCount [] = 0 := Nat.le_zero.mp segmentCount_le_length
  unfold replyBytes replySegments
  rw [if_pos hzero]
  rfl

theorem replyBytes_of_ne_nil {content : Str} (h : content ≠ []) : replyBytes content = content := by
  unfold replyBytes replySegments
  rw [if_neg (segmentCount_pos h).ne']
  exact flatten_segmentData

/-! ### Reading it -/

/-- The names that `NDNFetchManager.fetch` finds in one of the texts it has fetched. -/
def namesIn (obj : Str) : List Str :=
  let stringObj := eraseAll "\"".toList obj
  if stringObj.length < 3 then [] else splitText ",".toList stringObj

/-- The names it collects. -/
def resultNames (result : List Str) : Finset Str := (result.flatMap namesIn).toFinset

/-! ### Both together -/

/-- None of the characters that have a meaning in a reply, and as long as a text has to be. -/
structure PlainReference (reference : Str) : Prop where
  ascii : IsAscii reference
  three_le : 3 ≤ reference.length
  quote : '"' ∉ reference
  comma : ',' ∉ reference
  backslash : '\\' ∉ reference
  blank : ' ' ∉ reference
  opening : '\x7b' ∉ reference
  closing : '\x7d' ∉ reference

/-- A reference in quotes. -/
def quoted (reference : Str) : Str := '"' :: reference ++ ['"']

/-- What `bsoncxx::to_json` prints for the document of a reference. -/
def referenceDocument (x : Str) : Str :=
  "\x7b \"reference\" : ".toList ++ quoted x ++ " \x7d".toList

section Replies

variable {references : List Str}

/-- Quoting adds no character but the quotes. -/
theorem not_mem_quoted {c : Char} {reference : Str} (hc : c ≠ '"') (h : c ∉ reference) :
    c ∉ quoted reference := by
  intro hmem
  rcases List.mem_cons.mp hmem with hmem | hmem
  · exact hc hmem
  · rcases List.mem_append.mp hmem with hmem | hmem
    · exact h hmem
    · exact hc (List.mem_singleton.mp hmem)

/-- **What readQuery sends**: the references in quotes, with commas between them. -/
theorem queryReply_eq {toJson : Str → Str}
    (htoJson : ∀ x, toJson x = referenceDocument x)
    (h : ∀ x ∈ references, PlainReference x) :
    queryReply toJson references = (",".toList).intercalate (references.map quoted) := by
  have hjson : toJson = referenceDocument := funext htoJson
  unfold queryReply
  dsimp only
  rw [hjson]
  exact eraseAll_documents (fun x hx => not_mem_quoted (by decide) (h x hx).opening)
    (fun x hx => not_mem_quoted (by decide) (h x hx).blank)
    fun x hx => Erases.of_not_mem (not_mem_quoted (by decide) (h x hx).backslash)

/-- The bytes of the quoted references are characters of the string made of them. -/
theorem isAscii_intercalate_quoted (h : ∀ x ∈ references, PlainReference x) :
    IsAscii ((",".toList).intercalate (references.map quoted)) := by
  intro c hc
  rcases mem_intercalate hc with hc | ⟨part, hpart, hc⟩
  · rw [List.mem_singleton.mp hc]
    decide
  · obtain ⟨x, hx, rfl⟩ := List.mem_map.mp hpart
    by_cases hquote : c = '"'
    · rw [hquote]
      decide
    · by_contra hlarge
      exact not_mem_quoted hquote (fun hmem => hlarge ((h x hx).ascii c hmem)) hc

/-- **What the front end finds in a reply**: the references, and in an empty reply, none. -/
theorem namesIn_reply {toJson : Str → Str}
    (htoJson : ∀ x, toJson x = referenceDocument x)
    (h : ∀ x ∈ references, PlainReference x) :
    namesIn (getStringElement (replyBytes (queryReply toJson references))) = references := by
  rw [queryReply_eq htoJson h]
  rcases eq_or_ne references [] with rfl | hne
  · rw [List.map_nil, List.intercalate_nil, replyBytes_nil]
    rfl
  have hquotes : Erases "\"".toList ((",".toList).intercalate (references.map quoted))
      ((",".toList).intercalate (references.map id)) := by
    refine Erases.intercalate (Erases.of_not_mem (by decide)) fun x hx => ?_
    have hquote : Erases "\"".toList ['"'] [] := Erases.pattern (by decide)
    have hreference : Erases "\"".toList x x := Erases.of_not_mem (h x hx).quote
    simpa [quoted] using (hquote.append hreference).append hquote
  obtain ⟨x, hx⟩ := List.exists_mem_of_ne_nil references hne
  have hcontent : (",".toList).intercalate (references.map quoted) ≠ [] := by
    have hlength := length_le_intercalate ",".toList (List.mem_map_of_mem (f := quoted) hx)
    intro hnil
    rw [hnil] at hlength
    exact absurd hlength (by simp [quoted])
  have hlong : ¬((",".toList).intercalate references).length < 3 :=
    Nat.not_lt.mpr ((h x hx).three_le.trans (length_le_intercalate _ hx))
  unfold namesIn
  dsimp only
  rw [replyBytes_of_ne_nil hcontent,
    getStringElement_of_isAscii (isAscii_intercalate_quoted h), hquotes.eq, List.map_id,
    if_neg hlong]
  refine splitText_intercalate hne fun x hx => ⟨(h x hx).comma, ?_⟩
  have hthree := (h x hx).three_le
  rintro rfl
  exact absurd hthree (by decide)

/-- **Names extracted from the replies of any repositories**: the references of all their lists,
whatever their number, and nothing else. -/
theorem resultNames_replies {toJson : Str → Str}
    (htoJson : ∀ x, toJson x = referenceDocument x)
    (resultLists : List (List Str))
    (h : ∀ references ∈ resultLists, ∀ x ∈ references, PlainReference x) :
    resultNames (resultLists.map fun references =>
      getStringElement (replyBytes (queryReply toJson references))) =
      resultLists.flatten.toFinset := by
  have hnames : ∀ references ∈ resultLists,
      namesIn (getStringElement (replyBytes (queryReply toJson references))) = references :=
    fun references hreferences => namesIn_reply htoJson (h references hreferences)
  unfold resultNames
  rw [List.flatMap_map, List.flatMap_congr hnames, List.flatMap_id']

end Replies

instance (reference : Str) : Decidable (PlainReference reference) :=
  decidable_of_iff (IsAscii reference ∧ 3 ≤ reference.length ∧ '"' ∉ reference ∧ ',' ∉ reference ∧
      '\\' ∉ reference ∧ ' ' ∉ reference ∧ '\x7b' ∉ reference ∧ '\x7d' ∉ reference)
    ⟨fun ⟨ascii, three_le, quote, comma, backslash, blank, opening, closing⟩ =>
      ⟨ascii, three_le, quote, comma, backslash, blank, opening, closing⟩,
    fun h => ⟨h.ascii, h.three_le, h.quote, h.comma, h.backslash, h.blank, h.opening, h.closing⟩⟩

private def firstReference : Str := "/OGB/1/2/GPS_id/GEOJSON/t/c/u/n1".toList

private def secondReference : Str := "/OGB/1/2/GPS_id/GEOJSON/t/c/u/n2".toList

private theorem plainReference_first : PlainReference firstReference := by decide

private theorem plainReference_second : PlainReference secondReference := by decide

/-- Three repositories, one of which has found nothing, and a reference found twice. -/
theorem resultNames_three_replies :
    resultNames ([[firstReference], [], [secondReference, firstReference]].map fun references =>
      getStringElement (replyBytes (queryReply referenceDocument references))) =
      [[firstReference], [], [secondReference, firstReference]].flatten.toFinset := by
  refine resultNames_replies (fun _ => rfl) _ fun references hreferences x hx => ?_
  have hmem : x ∈ [firstReference, secondReference, firstReference] :=
    List.mem_flatten.mpr ⟨references, hreferences, hx⟩
  simp only [List.mem_cons, List.not_mem_nil, or_false] at hmem
  rcases hmem with rfl | rfl | rfl
  exacts [plainReference_first, plainReference_second, plainReference_first]

end OpenGeoBase
