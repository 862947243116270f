import OpenGeoBase.Fes.TemporalNode
import OpenGeoBase.Lib.Text
import Mathlib.Data.Nat.Log
import Mathlib.Tactic.IntervalCases

/-!
# Names of minutes and of temporal nodes

A minute is named by its decimal digits: the last four make a component each, the others are the
first component. A node is named by as many components of its first minute as the logarithm of its
length leaves. So the name of a decimal tile is a prefix of the names of its own minutes and of no
others (`temporalSuffix_prefix_iff`).
-/

namespace OpenGeoBase

open Text

namespace TemporalUtils

def MAX_LEVEL : ℤ := 5

/-- A character of the minutes is put in front for each `i`, if there are so many. -/
def dateToTemporalComponent (minutes : ℤ) : List Str :=
  let minutesString := toDecimalInt minutes
  let component := (List.range 4).foldl (fun component i =>
    if i + 1 ≤ minutesString.length then
      [minutesString.getD (minutesString.length - i - 1) ' '] :: component
    else component) []
  let component := List.replicate (4 - component.length) ['0'] ++ component
  if 4 < minutesString.length then
    minutesString.take (minutesString.length - 4) :: component
  else component

def dateToTemporalSuffixFromMinutes (minutes : ℤ) : Str :=
  ['/'].intercalate (dateToTemporalComponent minutes)

/-- The loop of `dateToTemporalComponentAtLevel` on the components from the last one to the first.
Nothing can be removed when there is none left. -/
def removeLast (level : ℤ) : List Str → Option (List Str)
  | [] => if 0 ≤ level then some [] else none
  | c :: components =>
    if ((c :: components).length : ℤ) ≤ level then some (c :: components)
    else removeLast level components

def dateToTemporalComponentAtLevel (minutes level : ℤ) : Option (List Str) :=
  (removeLast level (dateToTemporalComponent minutes).reverse).map List.reverse

/-- `(int)Math.log10` of a length, exact if that is a power of ten. -/
def log10 (length : ℤ) : ℤ := Nat.log 10 length.toNat

/-- `none` when the length of the node leaves less than no component. -/
def computeTimeTileSuffix (node : TemporalNode) : Option Str :=
  let start := node.startTime
  let stop := node.stopTime
  (dateToTemporalComponentAtLevel start (MAX_LEVEL - log10 (stop - start))).map ['/'].intercalate

/-! ### Components -/

section Components

/-- The components of the last four characters of a text. -/
theorem foldl_component (q : Str) (a b c d : Char) :
    (List.range 4).foldl (fun component i =>
      if i + 1 ≤ (q ++ [a, b, c, d]).length then
        [(q ++ [a, b, c, d]).getD ((q ++ [a, b, c, d]).length - i - 1) ' '] :: component
      else component) [] = [[a], [b], [c], [d]] := by
  have hget : ∀ k < 4, (q ++ [a, b, c, d]).getD (q.length + k) ' ' = [a, b, c, d].getD k ' ' := by
    intro k hk
    rw [List.getD_eq_getElem?_getD, List.getElem?_append_right (Nat.le_add_right _ _),
      Nat.add_sub_cancel_left, ← List.getD_eq_getElem?_getD]
  have hlength : (q ++ [a, b, c, d]).length = q.length + 4 := List.length_append
  have hle : ∀ i < 4, i + 1 ≤ q.length + 4 := fun i hi => by omega
  have hsub : ∀ i < 4, q.length + 4 - i - 1 = q.length + (3 - i) := fun i hi => by omega
  have hrange : List.range 4 = [0, 1, 2, 3] := rfl
  rw [hlength, hrange]
  simp only [List.foldl_cons, List.foldl_nil]
  rw [if_pos (hle 0 (by norm_num)), if_pos (hle 1 (by norm_num)), if_pos (hle 2 (by norm_num)),
    if_pos (hle 3 (by norm_num)), hsub 0 (by norm_num), hsub 1 (by norm_num),
    hsub 2 (by norm_num), hsub 3 (by norm_num), hget _ (by norm_num), hget _ (by norm_num),
    hget _ (by norm_num), hget _ (by norm_num)]
  rfl

/-- The digits of a number, with the last four of them apart. -/
theorem toDecimal_eq {n : ℕ} (h : 10000 ≤ n) : toDecimal n = toDecimal (n / 10000) ++
    [(n / 1000 % 10).digitChar, (n / 100 % 10).digitChar, (n / 10 % 10).digitChar,
      (n % 10).digitChar] := by
  have hdigit : ∀ {n : ℕ}, 10 ≤ n → toDecimal n = toDecimal (n / 10) ++ [(n % 10).digitChar] :=
    fun hn => Nat.toDigits_of_base_le (by norm_num) hn
  have h₁ : n / 10 / 10 = n / 100 := Nat.div_div_eq_div_mul n 10 10
  have h₂ : n / 100 / 10 = n / 1000 := Nat.div_div_eq_div_mul n 100 10
  have h₃ : n / 1000 / 10 = n / 10000 := Nat.div_div_eq_div_mul n 1000 10
  rw [hdigit (by omega : 10 ≤ n), hdigit (by omega : 10 ≤ n / 10), h₁,
    hdigit (by omega : 10 ≤ n / 100), h₂, hdigit (by omega : 10 ≤ n / 1000), h₃]
  simp only [List.append_assoc, List.cons_append, List.nil_append]

/-- A minute has five components. -/
theorem dateToTemporalComponent_eq {n : ℕ} (h : 10000 ≤ n) : dateToTemporalComponent n =
    [toDecimal (n / 10000), [(n / 1000 % 10).digitChar], [(n / 100 % 10).digitChar],
      [(n / 10 % 10).digitChar], [(n % 10).digitChar]] := by
  have htext : toDecimalInt (n : ℤ) = toDecimal n := by
    unfold toDecimalInt
    rw [if_neg (by omega), Int.natAbs_natCast]
  have hne : 0 < (toDecimal (n / 10000)).length :=
    List.length_pos_of_ne_nil (toDecimal_ne_nil _)
  unfold dateToTemporalComponent
  rw [htext, toDecimal_eq h]
  dsimp only
  -- the last four digits one by one, what stands before them as one component
  rw [foldl_component, if_pos]
  · rw [List.length_append]
    show (toDecimal (n / 10000) ++ _).take ((toDecimal (n / 10000)).length + 4 - 4) :: _ = _
    rw [Nat.add_sub_cancel, List.take_left]
    rfl
  · rw [List.length_append]
    show 4 < (toDecimal (n / 10000)).length + 4
    omega

/-- There is no slash in a component. -/
theorem slashFree_component {n : ℕ} (h : 10000 ≤ n) {c : Str}
    (hc : c ∈ dateToTemporalComponent n) : SlashFree c := by
  have hdigit : ∀ k, SlashFree [(k % 10).digitChar] := by
    intro k
    rw [← toDecimal_of_lt_ten (Nat.mod_lt k (by norm_num))]
    exact (isDigits_toDecimal _).slashFree
  rw [dateToTemporalComponent_eq h] at hc
  simp only [List.mem_cons, List.not_mem_nil, or_false] at hc
  rcases hc with rfl | rfl | rfl | rfl | rfl
  · exact (isDigits_toDecimal _).slashFree
  all_goals exact hdigit _

/-- The code drops from the front what the level does not keep. -/
theorem removeLast_eq {level : ℤ} (h : 0 ≤ level) (components : List Str) :
    removeLast level components = some (components.drop (components.length - level.toNat)) := by
  induction components with
  | nil => simp [removeLast, h]
  | cons c components ih =>
    unfold removeLast
    split
    · next hle =>
      have hzero : (c :: components).length - level.toNat = 0 := by omega
      rw [hzero]
      rfl
    · next hlt =>
      have hsucc : (c :: components).length - level.toNat =
          components.length - level.toNat + 1 := by
        rw [List.length_cons] at hlt ⊢
        omega
      rw [ih, hsucc, List.drop_succ_cons]

/-- The first components of a minute. -/
theorem dateToTemporalComponentAtLevel_eq (minutes : ℤ) {level : ℤ} (h : 0 ≤ level) :
    dateToTemporalComponentAtLevel minutes level =
      some ((dateToTemporalComponent minutes).take level.toNat) := by
  unfold dateToTemporalComponentAtLevel
  rw [removeLast_eq h, List.length_reverse, List.drop_reverse, Option.map_some,
    List.reverse_reverse]
  congr 1
  rw [List.take_eq_take_iff]
  omega

end Components

/-! ### Prefixes of names -/

section Prefix

variable {m n j : ℕ}

/-- Numbers with the same digits are equal. -/
theorem toDecimal_injective : Function.Injective toDecimal := fun m n h => by
  have hvalue := congrArg digitsValue h
  rwa [digitsValue_toDecimal, digitsValue_toDecimal] at hvalue

/-- The same digit. -/
theorem digitChar_inj (hm : m < 10) (hn : n < 10) (h : m.digitChar = n.digitChar) : m = n := by
  have hvalue : digitsValue [m.digitChar] = digitsValue [n.digitChar] :=
    congrArg (fun c => digitsValue [c]) h
  rwa [digitsValue_digitChar hm, digitsValue_digitChar hn] at hvalue

/-- Minutes of the same tile have the same first components, and no others have. -/
theorem take_component_eq_iff (hm : 10000 ≤ m) (hn : 10000 ≤ n) (hj : j ≤ 4) :
    (dateToTemporalComponent n).take (5 - j) = (dateToTemporalComponent m).take (5 - j) ↔
      n / 10 ^ j = m / 10 ^ j := by
  have hdecimal : toDecimal (n / 10000) = toDecimal (m / 10000) ↔ n / 10000 = m / 10000 :=
    toDecimal_injective.eq_iff
  have hdigit : ∀ k l, (k % 10).digitChar = (l % 10).digitChar ↔ k % 10 = l % 10 := by
    intro k l
    exact ⟨digitChar_inj (Nat.mod_lt k (by norm_num)) (Nat.mod_lt l (by norm_num)),
      congrArg Nat.digitChar⟩
  rw [dateToTemporalComponent_eq hm, dateToTemporalComponent_eq hn]
  interval_cases j
  all_goals
    simp only [Nat.reduceSub, List.take_succ_cons, List.take_zero, List.cons.injEq, and_true,
      hdecimal, hdigit, Nat.reducePow, pow_zero, pow_one, Nat.div_one]
  all_goals omega

/-- The minutes of a tile are those with its quotient. -/
theorem div_eq_div_iff_mem (hdvd : 10 ^ j ∣ n) : n / 10 ^ j = m / 10 ^ j ↔
    n ≤ m ∧ m < n + 10 ^ j := by
  obtain ⟨q, rfl⟩ := hdvd
  have hpos : 0 < 10 ^ j := Nat.pow_pos (by norm_num)
  rw [mul_comm, Nat.mul_div_cancel q hpos, eq_comm, Nat.div_eq_iff hpos]
  generalize q * 10 ^ j = s
  omega

end Prefix

/-- **Temporal names decide membership.** The components in the name of a tile are the first ones
in the name of a minute if and only if the minute lies in the tile. -/
theorem temporalSuffix_prefix_iff {node : TemporalNode} {j : ℕ} {m : ℤ} (hj : j ≤ 4)
    (hstop : node.stopTime = node.startTime + 10 ^ j) (hdvd : 10 ^ j ∣ node.startTime)
    (hs : 10000 ≤ node.startTime) (hm : 10000 ≤ m) :
    ∃ suffix, computeTimeTileSuffix node = some suffix ∧
      (splitPath suffix <+: splitPath (dateToTemporalSuffixFromMinutes m) ↔
        node.startTime ≤ m ∧ m < node.stopTime) := by
  obtain ⟨s, hstart⟩ : ∃ s : ℕ, node.startTime = s := Int.eq_ofNat_of_zero_le (by omega)
  obtain ⟨m, rfl⟩ : ∃ m' : ℕ, m = m' := Int.eq_ofNat_of_zero_le (by omega)
  rw [hstart] at hstop hdvd hs
  have hs' : 10000 ≤ s := by exact_mod_cast hs
  have hm' : 10000 ≤ m := by exact_mod_cast hm
  -- a tile of `10 ^ j` minutes keeps `5 - j` components
  have hlevel : MAX_LEVEL - log10 (node.stopTime - node.startTime) = ((5 - j : ℕ) : ℤ) := by
    have hlength : (node.stopTime - node.startTime).toNat = 10 ^ j := by
      rw [hstop, hstart, add_sub_cancel_left]
      exact_mod_cast Int.toNat_natCast (10 ^ j)
    unfold MAX_LEVEL log10
    rw [hlength, Nat.log_pow (by norm_num)]
    omega
  -- the components have no slash, so splitting gives them back
  have hsplit : ∀ {n : ℕ} {components : List Str}, 10000 ≤ n → components ≠ [] →
      components <+: dateToTemporalComponent n →
        splitPath (['/'].intercalate components) = components := by
    intro n components hn hne hsub
    unfold splitPath
    exact List.splitOn_intercalate '/' (fun c hc => slashFree_component hn (hsub.subset hc)) hne
  have hfive : ∀ {n : ℕ}, 10000 ≤ n → (dateToTemporalComponent n).length = 5 := by
    intro n hn
    rw [dateToTemporalComponent_eq hn]
    rfl
  have htake : ((dateToTemporalComponent s).take (5 - j)).length = 5 - j := by
    rw [List.length_take, hfive hs']
    omega
  have hne : (dateToTemporalComponent s).take (5 - j) ≠ [] :=
    List.ne_nil_of_length_pos (by omega)
  refine ⟨['/'].intercalate ((dateToTemporalComponent s).take (5 - j)), ?_, ?_⟩
  · unfold computeTimeTileSuffix
    dsimp only
    rw [hlevel, hstart, dateToTemporalComponentAtLevel_eq _ (Int.natCast_nonneg _),
      Int.toNat_natCast]
    rfl
  -- prefix of the components, that is, of the digits, that is, the same quotient by `10 ^ j`
  · have hname : splitPath (dateToTemporalSuffixFromMinutes m) = dateToTemporalComponent m :=
      hsplit hm' (List.ne_nil_of_length_pos (by rw [hfive hm']; norm_num)) List.prefix_rfl
    rw [hsplit hs' hne (List.take_prefix _ _), hname, List.prefix_iff_eq_take, htake,
      take_component_eq_iff hm' hs' hj, div_eq_div_iff_mem (by exact_mod_cast hdvd), hstop, hstart]
    norm_cast

/-- Ten minutes, and one of them. -/
theorem temporalSuffix_prefix_ten :
    ∃ suffix, computeTimeTileSuffix ⟨12340, 12350, true, []⟩ = some suffix ∧
      (splitPath suffix <+: splitPath (dateToTemporalSuffixFromMinutes 12345) ↔
        (12340 : ℤ) ≤ 12345 ∧ (12345 : ℤ) < 12350) :=
  temporalSuffix_prefix_iff (j := 1) (by norm_num) (by norm_num) (by norm_num) (by norm_num)
    (by norm_num)

end TemporalUtils

end OpenGeoBase
