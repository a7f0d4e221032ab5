import Icecast.Lib.Highest
import Icecast.Util.AcceptRoundTrip

/-!
# The best of the offered types

A type that is offered is matched by the media ranges that name it or its group. The best one has the match
of the highest quality. `util_http_select_best` (`util.c`) looks for the highest quality in the header
instead, also if it belongs to a type that nobody offers.
-/

namespace Icecast.Util.AcceptBest

open AcceptParser AcceptHeader AcceptRoundTrip Lib.Checked Lib.CString Lib.Highest
open Format.Comments (Bytes bytes)

/-! ## Qualities -/

def isDigit (char : UInt8) : Bool := 48 ≤ char && char ≤ 57

/-- A number from zero to one, with three decimal places at most. -/
def isQvalue : Bytes → Bool
  | [char] => char = 48 || char = 49
  | 48 :: 46 :: places => places.length ≤ 3 && places.all isDigit
  | 49 :: 46 :: places => places.length ≤ 3 && places.all (· = 48)
  | _ => false

def decimal (digits : Bytes) : ℤ :=
  digits.foldl (fun value digit ↦ 10 * value + (digit.toNat - 48)) 0

def thousandths : Bytes → ℤ
  | 48 :: 46 :: places => decimal (places ++ List.replicate (3 - places.length) 48)
  | 49 :: _ => 1000
  | _ => 0

def isWeight (param : MediaParam) : Bool := strcasecmp param.name.item.chars (bytes "q")

/-- The value of a parameter, if it is a token. -/
def tokenValue (param : MediaParam) : Option Bytes :=
  match param.value with
  | some ⟨_, .token text, _⟩ => some text.chars
  | _ => none

/-- The first parameter `q` is the quality. -/
def quality (range : MediaRange) : ℤ :=
  match range.params.find? isWeight with
  | none => 1000
  | some param => ((tokenValue param).map thousandths).getD 0

/-- Qualities are written as they should be. -/
def WellFormed (ranges : List MediaRange) : Prop :=
  ∀ range ∈ ranges, ∀ param ∈ range.params.find? isWeight,
    ∃ text ∈ tokenValue param, isQvalue text = true

/-! ## Matches -/

def isNamed (pattern : Bytes) (range : MediaRange) : Bool := strcasecmp range.name.item.chars pattern

/-- Any type that begins like this one. -/
def typeGroup (offer : Bytes) : Bytes :=
  if 47 ∈ offer then offer.takeWhile (· ≠ 47) ++ bytes "/*" else offer

/-- The highest quality for a name. It is zero if the header does not have the name. -/
def qualityFor (ranges : List MediaRange) (pattern : Bytes) : ℤ :=
  highest quality 0 (ranges.filter (isNamed pattern))

structure Candidate where
  offer : Bytes
  quality : ℤ
  deriving DecidableEq

/-- The offers with their own qualities, and then with those of their groups. -/
def candidates (ranges : List MediaRange) (offers : List Bytes) : List Candidate :=
  offers.map (fun offer ↦ ⟨offer, qualityFor ranges offer⟩) ++
    offers.map fun offer ↦ ⟨offer, qualityFor ranges (typeGroup offer)⟩

/-- What the negotiation should give. -/
inductive Best (ranges : List MediaRange) (first : Bytes) (others : List Bytes) : Bytes → Prop
  | matched (candidate : Candidate) (positive : 0 < candidate.quality)
      (highest : IsFirstHighest Candidate.quality (candidates ranges (first :: others)) candidate) :
      Best ranges first others candidate.offer
  | unmatched (zero : ∀ candidate ∈ candidates ranges (first :: others), candidate.quality ≤ 0) :
      Best ranges first others first

section Matches

variable {ranges : List MediaRange} {first : Bytes} {others : List Bytes}

/-- There is one best offer. -/
theorem Best.eq {offer other : Bytes} (h : Best ranges first others offer)
    (hother : Best ranges first others other) : offer = other := by
  cases h with
  | matched candidate positive highest =>
    cases hother with
    | matched candidate' positive' highest' => rw [highest.eq highest']
    | unmatched zero => exact absurd positive (not_lt_of_ge (zero candidate highest.mem))
  | unmatched zero =>
    cases hother with
    | matched candidate positive highest =>
      exact absurd positive (not_lt_of_ge (zero candidate highest.mem))
    | unmatched zero' => rfl

end Matches

/-! ## What the code computes -/

section Qualities

theorem parseQLoop_digit {char : UInt8} (h : isDigit char = true) (ret mul : ℤ) (rest : Bytes) :
    parseQLoop ret mul (char :: rest) = parseQLoop (ret + mul * (char.toNat - 48)) (mul / 10) rest := by
  rw [parseQLoop, if_pos (by simpa [isDigit] using h)]

/-- As many places as there are tenths, hundredths and thousandths. -/
theorem parseQLoop_places {places : Bytes} (hlength : places.length ≤ 3)
    (hdigits : ∀ char ∈ places, isDigit char = true) :
    parseQLoop 0 100 places = decimal (places ++ List.replicate (3 - places.length) 48) := by
  match places, hlength with
  | [], _ => rfl
  | [first], _ =>
    rw [parseQLoop_digit (hdigits first (by simp))]
    simp [parseQLoop, decimal]
    omega
  | [first, second], _ =>
    rw [parseQLoop_digit (hdigits first (by simp)), parseQLoop_digit (hdigits second (by simp))]
    simp [parseQLoop, decimal]
    omega
  | [first, second, third], _ =>
    rw [parseQLoop_digit (hdigits first (by simp)), parseQLoop_digit (hdigits second (by simp)),
      parseQLoop_digit (hdigits third (by simp))]
    simp [parseQLoop, decimal]
    omega
  | _ :: _ :: _ :: _ :: _, hlength =>
    simp only [List.length_cons] at hlength
    omega

theorem parseQLoop_zeros (ret mul : ℤ) {zeros : Bytes} (h : ∀ char ∈ zeros, char = 48) :
    parseQLoop ret mul zeros = ret := by
  induction zeros generalizing mul with
  | nil => rfl
  | cons char zeros ih =>
    rw [List.forall_mem_cons] at h
    have hret : ret + mul * (((48 : UInt8).toNat : ℤ) - 48) = ret := by simp
    rw [h.1, parseQLoop_digit (by decide), hret, ih _ h.2]

theorem parseQLoop_eq_thousandths {text : Bytes} (h : isQvalue text = true) :
    parseQLoop 0 1000 text = thousandths text := by
  unfold isQvalue at h
  split at h
  · simp only [Bool.or_eq_true, decide_eq_true_eq] at h
    rcases h with rfl | rfl <;> rfl
  · rename_i places
    simp only [Bool.and_eq_true, decide_eq_true_eq, List.all_eq_true] at h
    exact parseQLoop_places h.1 h.2
  · rename_i places
    simp only [Bool.and_eq_true, decide_eq_true_eq, List.all_eq_true] at h
    have hone : parseQLoop 0 1000 (49 :: 46 :: places) = parseQLoop 1000 100 places := rfl
    rw [hone]
    exact parseQLoop_zeros 1000 100 h.2
  · cases h

theorem qualityOf_readEntries {range : MediaRange}
    (hwell : ∀ param ∈ range.params.find? isWeight, ∃ text ∈ tokenValue param, isQvalue text = true) :
    qualityOf (range.params.map MediaParam.readEntry) = .ok (quality range) := by
  have hfind : (range.params.map MediaParam.readEntry).find? isQ =
      (range.params.find? isWeight).map MediaParam.readEntry := List.find?_map
  unfold qualityOf quality
  rw [hfind]
  cases hweight : range.params.find? isWeight with
  | none => rfl
  | some param =>
    obtain ⟨text, htext, hqvalue⟩ := hwell param hweight
    obtain ⟨name, value⟩ := param
    unfold tokenValue at htext ⊢
    split at htext
    · rename_i before token after hvalue
      cases htext
      cases hvalue
      simp only [MediaParam.readEntry, Option.map_some, Option.bind_some, Value.read,
        parseQLoop_eq_thousandths hqvalue, Option.getD_some]
    · cases htext

end Qualities

section Groups

/-- The first slash is where the group ends. -/
theorem strstr_slash (text : Bytes) : strstr (bytes "/") text =
    if 47 ∈ text then some (text.takeWhile (· ≠ 47)).length else none := by
  have hslash : bytes "/" = [47] := rfl
  rw [hslash]
  induction text with
  | nil => rfl
  | cons char text ih =>
    rw [strstr, ih]
    by_cases hchar : char = 47
    · subst hchar
      simp
    · have hprefix : ¬ [47] <+: char :: text := by simpa using Ne.symm hchar
      rw [if_neg hprefix]
      by_cases hmem : 47 ∈ text <;> simp [hmem, hchar, Ne.symm hchar]

theorem group_fillArg (offer : Bytes) : (fillArg offer).group = typeGroup offer := by
  have htake : offer.take (offer.takeWhile (· ≠ 47)).length = offer.takeWhile (· ≠ 47) :=
    (List.prefix_iff_eq_take.mp (List.takeWhile_prefix _)).symm
  unfold fillArg typeGroup
  dsimp only
  rw [strstr_slash]
  by_cases hslash : 47 ∈ offer
  · rw [if_pos hslash, if_pos hslash]
    dsimp only
    rw [htake]
  · rw [if_neg hslash, if_neg hslash]

end Groups

section Selection

variable {ranges : List MediaRange}

/-- What is known of an offer when the whole header has been gone through. -/
def rate (ranges : List MediaRange) (offer : Bytes) : Arg where
  comp := offer
  group := typeGroup offer
  bestComp := qualityFor ranges offer
  bestGroup := qualityFor ranges (typeGroup offer)

theorem selectWords_readEntries {range : MediaRange}
    (hwell : ∀ param ∈ range.params.find? isWeight, ∃ text ∈ tokenValue param, isQvalue text = true)
    (bestQ : ℤ) (arg : Arg) : selectWords (bestQ, arg) range.readEntries =
      .ok (max bestQ (quality range),
        { arg with
          bestComp := if isNamed arg.comp range then max arg.bestComp (quality range) else arg.bestComp
          bestGroup :=
            if isNamed arg.group range then max arg.bestGroup (quality range) else arg.bestGroup }) := by
  rw [MediaRange.readEntries, selectWords]
  simp only [qualityOf_readEntries hwell, ok_bind]
  rfl

theorem foldlM_selectWords (hwell : WellFormed ranges) (bestQ : ℤ) (arg : Arg) :
    (ranges.map MediaRange.readEntries).foldlM selectWords (bestQ, arg) =
      .ok (highest quality bestQ ranges,
        { arg with
          bestComp := highest quality arg.bestComp (ranges.filter (isNamed arg.comp))
          bestGroup := highest quality arg.bestGroup (ranges.filter (isNamed arg.group)) }) := by
  induction ranges generalizing bestQ arg with
  | nil => rfl
  | cons range ranges ih =>
    obtain ⟨hrange, hranges⟩ := List.forall_mem_cons.mp hwell
    rw [List.map_cons, List.foldlM_cons, selectWords_readEntries hrange, ok_bind, ih hranges,
      List.filter_cons, List.filter_cons]
    dsimp only
    cases isNamed arg.comp range <;> cases isNamed arg.group range <;> rfl

theorem selectAll_readEntries (hwell : WellFormed ranges) (bestQ : ℤ) (first : Bytes)
    (others : List Bytes) :
    selectAll (ranges.map MediaRange.readEntries) bestQ ((first :: others).map fillArg) =
      .ok (highest quality bestQ ranges, (first :: others).map (rate ranges)) := by
  have hrate (offer : Bytes) (best : ℤ) :
      (ranges.map MediaRange.readEntries).foldlM selectWords (best, fillArg offer) =
        .ok (highest quality best ranges, rate ranges offer) := by
    rw [foldlM_selectWords hwell, group_fillArg]
    rfl
  induction others generalizing bestQ first with
  | nil =>
    rw [List.map_singleton, selectAll, hrate]
    rfl
  | cons next others ih =>
    rw [List.map_cons, selectAll, hrate, ok_bind]
    dsimp only
    rw [ih, highest_again]
    rfl

theorem pickBest_rate (bestQ : ℤ) (offers : List Bytes) : pickBest bestQ (offers.map (rate ranges)) =
    ((candidates ranges offers).find? fun candidate ↦ candidate.quality = bestQ).map Candidate.offer := by
  unfold pickBest candidates
  rw [List.find?_append, List.find?_map, List.find?_map, List.find?_map, List.find?_map]
  have hcomp : (fun arg : Arg ↦ decide (arg.bestComp = bestQ)) ∘ rate ranges =
      (fun candidate : Candidate ↦ decide (candidate.quality = bestQ)) ∘
        fun offer ↦ ⟨offer, qualityFor ranges offer⟩ := rfl
  have hgroup : (fun arg : Arg ↦ decide (arg.bestGroup = bestQ)) ∘ rate ranges =
      (fun candidate : Candidate ↦ decide (candidate.quality = bestQ)) ∘
        fun offer ↦ ⟨offer, qualityFor ranges (typeGroup offer)⟩ := rfl
  rw [hcomp, hgroup]
  cases offers.find? ((fun candidate : Candidate ↦ decide (candidate.quality = bestQ)) ∘
      fun offer ↦ ⟨offer, qualityFor ranges offer⟩) with
  | some offer => rfl
  | none =>
    cases offers.find? ((fun candidate : Candidate ↦ decide (candidate.quality = bestQ)) ∘
        fun offer ↦ ⟨offer, qualityFor ranges (typeGroup offer)⟩) with
    | some offer => rfl
    | none => rfl

end Selection

/-! ## Every header -/

section Headers

variable {ranges : List MediaRange} {first : Bytes} {others : List Bytes}

/-- What is returned for a header that has been read to its end. -/
def selected (ranges : List MediaRange) (first : Bytes) (others : List Bytes) : Bytes :=
  (((candidates ranges (first :: others)).find? fun candidate ↦
    candidate.quality = highest quality 0 ranges).map Candidate.offer).getD first

theorem selectFrom_readEntries (hwell : WellFormed ranges) (hfew : others.length ≤ 7) :
    selectFrom first others (.accepted (ranges.map MediaRange.readEntries)) =
      .ok (selected ranges first others) := by
  have htake : (first :: others).take selectBestMaxArgs = first :: others :=
    List.take_of_length_le (Nat.succ_le_succ hfew)
  rw [selectFrom, htake, selectAll_readEntries hwell, ok_bind, selected, ← pickBest_rate]
  rfl

theorem utilHttpSelectBest_renderRanges (signed : Bool) (hwell : WellFormed ranges)
    (hfew : others.length ≤ 7) :
    utilHttpSelectBest signed (some (renderRanges ranges)) first others =
      if passes signed ranges then
        if runsOn ranges then .error .readPast else .ok (selected ranges first others)
      else .ok first := by
  by_cases hne : ranges = []
  · subst hne
    rfl
  · have hread : readHeader signed (renderRanges ranges) Draft.start =
        if passes signed ranges then
          if runsOn ranges then .runsOn else .accepted (ranges.map MediaRange.readEntries)
        else .rejected := readHeader_renderRanges hne []
    rw [utilHttpSelectBest_eq signed (renderRanges_ne_nil hne) (zero_not_mem_renderRanges ranges), hread]
    cases passes signed ranges with
    | false => rfl
    | true =>
      cases runsOn ranges with
      | true => rfl
      | false => exact selectFrom_readEntries hwell hfew

/-- No match is better than the best in the header. -/
theorem quality_le_highest {offers : List Bytes} {candidate : Candidate}
    (h : candidate ∈ candidates ranges offers) :
    0 ≤ candidate.quality ∧ candidate.quality ≤ highest quality 0 ranges := by
  have hname (pattern : Bytes) :
      0 ≤ qualityFor ranges pattern ∧ qualityFor ranges pattern ≤ highest quality 0 ranges := by
    refine ⟨le_highest _, highest_le_iff.mpr ⟨le_highest _, fun range hrange ↦ ?_⟩⟩
    exact score_le_highest (List.mem_of_mem_filter hrange)
  rcases List.mem_append.mp h with hmem | hmem
  · obtain ⟨offer, -, rfl⟩ := List.mem_map.mp hmem
    exact hname offer
  · obtain ⟨offer, -, rfl⟩ := List.mem_map.mp hmem
    exact hname (typeGroup offer)

/-- The code compares with the best in the header, so it finds the best offer if no type that is not
offered is better, or if there is nothing better than the first offer. -/
theorem best_selected_iff : Best ranges first others (selected ranges first others) ↔
    Best ranges first others first ∨
      ∀ range ∈ ranges, ∃ candidate ∈ candidates ranges (first :: others),
        quality range ≤ candidate.quality := by
  by_cases hall : ∀ range ∈ ranges, ∃ candidate ∈ candidates ranges (first :: others),
      quality range ≤ candidate.quality
  · refine iff_of_true ?_ (Or.inr hall)
    by_cases hpositive : 0 < highest quality 0 ranges
    · obtain ⟨range, hrange, hquality⟩ := exists_eq_highest hpositive
      obtain ⟨candidate, hcandidate, hle⟩ := hall range hrange
      have hequal : candidate.quality = highest quality 0 ranges :=
        le_antisymm (quality_le_highest hcandidate).2 (hquality ▸ hle)
      unfold selected
      cases hfind : (candidates ranges (first :: others)).find? fun candidate ↦
          candidate.quality = highest quality 0 ranges with
      | none => exact absurd hequal (by simpa using List.find?_eq_none.mp hfind candidate hcandidate)
      | some found =>
        obtain ⟨hscore, hfirst⟩ :=
          isFirstHighest_of_find? (fun other hother ↦ (quality_le_highest hother).2) hfind
        exact Best.matched found (hscore ▸ hpositive) hfirst
    · have hzero : ∀ candidate ∈ candidates ranges (first :: others), candidate.quality ≤ 0 :=
        fun candidate hcandidate ↦ (quality_le_highest hcandidate).2.trans (not_lt.mp hpositive)
      have hfirst : selected ranges first others = first := by
        have hmem : ⟨first, qualityFor ranges first⟩ ∈ candidates ranges (first :: others) :=
          List.mem_cons_self
        have hquality : qualityFor ranges first = highest quality 0 ranges :=
          le_antisymm (quality_le_highest hmem).2
            ((not_lt.mp hpositive).trans (quality_le_highest hmem).1)
        rw [selected, candidates, List.map_cons, List.cons_append, List.find?_cons_of_pos (by simpa)]
        rfl
      rw [hfirst]
      exact Best.unmatched hzero
  · have hselected : selected ranges first others = first := by
      push Not at hall
      obtain ⟨range, hrange, hless⟩ := hall
      have hnone : (candidates ranges (first :: others)).find? (fun candidate ↦
          candidate.quality = highest quality 0 ranges) = none := by
        rw [List.find?_eq_none]
        intro candidate hcandidate
        simpa using ((hless candidate hcandidate).trans_le (score_le_highest hrange)).ne
      rw [selected, hnone]
      rfl
    rw [hselected, or_iff_left hall]

end Headers

/-- For every header that is written as it should be, and up to eight offers. -/
theorem select_best_iff (signed : Bool) (ranges : List MediaRange) (first : Bytes) (others : List Bytes)
    (hwell : WellFormed ranges) (hfew : others.length ≤ 7) :
    (∃ result, utilHttpSelectBest signed (some (renderRanges ranges)) first others = .ok result ∧
        Best ranges first others result) ↔
      (passes signed ranges = true → runsOn ranges = false) ∧
        (Best ranges first others first ∨ passes signed ranges = true ∧
          ∀ range ∈ ranges, ∃ candidate ∈ candidates ranges (first :: others),
            quality range ≤ candidate.quality) := by
  rw [utilHttpSelectBest_renderRanges signed hwell hfew]
  cases passes signed ranges with
  | false => simp
  | true =>
    cases runsOn ranges with
    | true => simp
    | false => simp [best_selected_iff]

def bare {α : Type} (item : α) : Padded α := ⟨plainBlank 0, item, plainBlank 0⟩

def imageWebp : TokenText := ⟨bytes "image/webp", by decide +kernel, by decide +kernel⟩

def textHtml : TokenText := ⟨bytes "text/html", by decide +kernel, by decide +kernel⟩

def weightHalf : MediaParam := ⟨bare ⟨bytes "q", by decide +kernel, by decide +kernel⟩,
  some (bare (.token ⟨bytes "0.5", by decide +kernel, by decide +kernel⟩))⟩

/-- The header `image/webp,text/html;q=0.5`. -/
def webpAndHtml : List MediaRange := [⟨bare imageWebp, []⟩, ⟨bare textHtml, [weightHalf]⟩]

theorem wellFormed_webpAndHtml : WellFormed webpAndHtml := by
  unfold WellFormed
  decide +kernel

theorem select_best_iff_webp_and_html :
    (∃ result, utilHttpSelectBest true (some (renderRanges webpAndHtml)) (bytes "text/plain")
        [bytes "text/html"] = .ok result ∧
        Best webpAndHtml (bytes "text/plain") [bytes "text/html"] result) ↔
      (passes true webpAndHtml = true → runsOn webpAndHtml = false) ∧
        (Best webpAndHtml (bytes "text/plain") [bytes "text/html"] (bytes "text/plain") ∨
          passes true webpAndHtml = true ∧ ∀ range ∈ webpAndHtml,
            ∃ candidate ∈ candidates webpAndHtml [bytes "text/plain", bytes "text/html"],
              quality range ≤ candidate.quality) :=
  select_best_iff true webpAndHtml (bytes "text/plain") [bytes "text/html"] wellFormed_webpAndHtml (by decide)

/-- An image is preferred that nobody offers, so plain text is sent where only HTML is accepted. -/
theorem select_best_misses_html : ¬ ∀ signed ranges first others, WellFormed ranges →
    others.length ≤ 7 → ∃ result,
      utilHttpSelectBest signed (some (renderRanges ranges)) first others = .ok result ∧
        Best ranges first others result := by
  intro hall
  obtain ⟨result, hrun, hbest⟩ := hall true webpAndHtml (bytes "text/plain") [bytes "text/html"]
    wellFormed_webpAndHtml (by decide)
  have hplain : utilHttpSelectBest true (some (renderRanges webpAndHtml)) (bytes "text/plain")
      [bytes "text/html"] = .ok (bytes "text/plain") := by decide +kernel
  have hhtml : IsFirstHighest Candidate.quality
      (candidates webpAndHtml [bytes "text/plain", bytes "text/html"]) ⟨bytes "text/html", 500⟩ :=
    isFirstHighest_iff.mpr (by decide +kernel)
  cases hplain.symm.trans hrun
  exact absurd (hbest.eq (Best.matched ⟨bytes "text/html", 500⟩ (by decide) hhtml)) (by decide)

end Icecast.Util.AcceptBest
