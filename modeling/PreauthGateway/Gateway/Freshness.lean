import PreauthGateway.Gateway.Exposure

/-!
# Fresh features

A hard feature must be fresh when it is read. The bundle accounts for every read of the loop, also
when the cache goes down halfway and leaves it partial: a hard feature has a value from a fresh read
or is listed as missing, and a feature listed as stale has a value.

## Main definitions

* `FeatureCache.look`: what a read finds
* `FeatureCache.FreshAt`: the entry of a feature is no older than its time to live
* `Assembled`: the account of the reads made

## Main results

* `Assembled.add`, `assembleLoop_assembled`: one read, and the loop
* `assembleLoop_staleSoft`: which features are listed as stale
* `Gateway.decide_without_model`: when the model is not asked, its answer makes no difference
* `Gateway.asks_fresh`: **the model is never asked with a stale or missing hard feature**
-/

namespace FeatureCache

variable {cardId : PyStr} {f : String} {now : ℚ} {c c' : FeatureCache}

/-- What a read of an available cache finds: the value, and whether it is stale. -/
def look (cardId : PyStr) (f : String) (now : ℚ) (c : FeatureCache) : Option PyFloat × Bool :=
  match c.entries.get? (entryKey cardId f) with
  | none => (none, false)
  | some e => (some e.value, 0 < (policyOf f).ttlS ∧ ((policyOf f).ttlS : ℚ) < now - e.writtenAt)

/-- The cache holds the value for the feature, in an entry no older than its time to live. -/
def FreshAt (cardId : PyStr) (f : String) (now : ℚ) (v : PyFloat) (c : FeatureCache) : Prop :=
  ∃ e, c.entries.get? (entryKey cardId f) = some e ∧ e.value = v ∧
    now - e.writtenAt ≤ (policyOf f).ttlS

/-- A read finds what the entries hold, and leaves them alone. -/
theorem get_cases {r : Option PyFloat × Bool} (h : c.get cardId f now = some (r, c')) :
    c.available = true ∧ r = c.look cardId f now ∧ c'.entries = c.entries ∧ c'.available = true := by
  unfold get at h
  cases hup : c.available with
  | false =>
    rw [hup] at h
    cases h
  | true =>
    rw [hup, if_pos rfl] at h
    rw [look]
    cases he : c.entries.get? (entryKey cardId f) with
    | none =>
      rw [he] at h
      cases h
      exact ⟨rfl, rfl, rfl, rfl⟩
    | some e =>
      rw [he] at h
      cases h
      exact ⟨rfl, rfl, rfl, rfl⟩

theorem look_congr (h : c'.entries = c.entries) : c'.look cardId f now = c.look cardId f now := by
  unfold look
  rw [h]

end FeatureCache

/-- A feature has a policy of its own, or the one that all others share. -/
theorem policyOf_cases (f : String) : (f, policyOf f) ∈ featurePolicy ∨ policyOf f = ⟨60, .soft⟩ := by
  unfold policyOf
  cases h : featurePolicy.get? f with
  | none => exact .inr rfl
  | some p => exact .inl (Dict.mem_of_get? h)

/-- A hard feature lives for a limited time. -/
theorem ttl_pos_of_hard {f : String} (h : (policyOf f).freshness = .hard) : 0 < (policyOf f).ttlS := by
  rcases policyOf_cases f with hmem | hdefault
  · have hall : ∀ p ∈ featurePolicy, p.2.freshness = .hard → 0 < p.2.ttlS := by
      simp [featurePolicy]
    exact hall _ hmem h
  · rw [hdefault] at h
    cases h

/-- What a read of a hard feature that is not stale finds is fresh. -/
theorem FeatureCache.freshAt_of_look {cardId : PyStr} {f : String} {now : ℚ} {c : FeatureCache}
    {v : PyFloat} (hard : (policyOf f).freshness = .hard)
    (h : c.look cardId f now = (some v, false)) : c.FreshAt cardId f now v := by
  unfold look at h
  split at h
  · cases h
  · rename_i e he
    simp only [Prod.mk.injEq, Option.some.injEq, decide_eq_false_iff_not, not_and, not_lt] at h
    exact ⟨e, he, h.1, h.2 (ttl_pos_of_hard hard)⟩

/-- The features `seen` were read, one after another, and the bundle accounts for them. -/
structure Assembled (cardId : PyStr) (reads : ℕ → CacheRead) (c : FeatureCache) (seen : List String)
    (b : FeatureBundle) : Prop where
  /-- A hard value comes from a read at which it was fresh. -/
  fresh : ∀ f v, (policyOf f).freshness = .hard → b.values.get? f = some v →
    ∃ i, seen[i]? = some f ∧ c.FreshAt cardId f (reads i).now v
  /-- Every read of a hard feature finds it fresh or lists it. -/
  hard : ∀ i f, seen[i]? = some f → (policyOf f).freshness = .hard →
    f ∈ b.missingHard ∨ ∃ v, b.values.get? f = some v ∧ c.FreshAt cardId f (reads i).now v
  staleSoft : ∀ f ∈ b.staleSoft, b.values.get? f ≠ none
  missing : ∀ f ∈ b.missingHard, f ∈ seen ∧ (seen.count f = 1 → b.values.get? f = none)
  unread : ∀ f, f ∉ seen → b.values.get? f = none

namespace FeatureBundle

/-- What is done with one answer of the cache: a hard feature is listed as missing, a missing one
is left out, or the value is taken. -/
theorem add_cases (b : FeatureBundle) (f : String) (value : Option PyFloat) (stale : Bool) :
    ((policyOf f).freshness = .hard ∧
      b.add f value stale = { b with missingHard := b.missingHard ++ [f] }) ∨
    ((policyOf f).freshness ≠ .hard ∧ b.add f value stale = b) ∨
    ∃ v, value = some v ∧ ((policyOf f).freshness = .hard → stale = false) ∧
      (b.add f value stale).values = b.values.set f v ∧
      (b.add f value stale).missingHard = b.missingHard ∧
      ∀ g ∈ (b.add f value stale).staleSoft, g ∈ b.staleSoft ∨ g = f := by
  cases value with
  | none =>
    by_cases hard : (policyOf f).freshness = .hard
    · exact .inl ⟨hard, by simp [add, hard]⟩
    · exact .inr (.inl ⟨hard, by simp [add, hard]⟩)
  | some v =>
    by_cases hbad : stale = true ∧ (policyOf f).freshness = .hard
    · exact .inl ⟨hbad.2, by simp [add, hbad]⟩
    · refine .inr (.inr ⟨v, rfl, fun hard => ?_, ?_⟩)
      · simpa [hard] using hbad
      · simp only [add, if_neg hbad]
        split
        · refine ⟨rfl, rfl, fun g hg => ?_⟩
          simpa using hg
        · exact ⟨rfl, rfl, fun g hg => .inl hg⟩

theorem cacheDown_add (b : FeatureBundle) (f : String) (value : Option PyFloat) (stale : Bool) :
    (b.add f value stale).cacheDown = b.cacheDown := by
  unfold add
  split
  · split <;> rfl
  · split
    · rfl
    · dsimp only
      split <;> rfl

end FeatureBundle

namespace Assembled

variable {cardId : PyStr} {reads : ℕ → CacheRead} {c : FeatureCache} {seen : List String}
  {b : FeatureBundle}

theorem nil : Assembled cardId reads c [] {} where
  fresh f v _ h := by cases h
  hard i f h _ := by cases h
  staleSoft f h := by cases h
  missing f h := by cases h
  unread f _ := rfl

section Read

variable {f : String}

theorem getElem?_read {i : ℕ} {g : String} (h : seen[i]? = some g) : (seen ++ [f])[i]? = some g := by
  rw [List.getElem?_append_left (List.getElem?_eq_some_iff.mp h).1, h]

/-- A read with `f` as the last one is an earlier read, or that of `f`. -/
theorem getElem?_read_cases {i : ℕ} {g : String} (h : (seen ++ [f])[i]? = some g) :
    seen[i]? = some g ∨ (i = seen.length ∧ g = f) := by
  rcases lt_or_ge i seen.length with hlt | hge
  · rw [List.getElem?_append_left hlt] at h
    exact .inl h
  · have hi := (List.getElem?_eq_some_iff.mp h).1
    rw [List.length_append, List.length_singleton] at hi
    have hlast : i = seen.length := by omega
    rw [hlast, List.getElem?_concat_length] at h
    exact .inr ⟨hlast, (Option.some.inj h).symm⟩

/-- A feature read before, and once altogether, is not the last one. -/
theorem count_read {g : String} (hg : g ∈ seen) (h : (seen ++ [f]).count g = 1) :
    g ≠ f ∧ seen.count g = 1 := by
  rw [List.count_append] at h
  have hpos := List.count_pos_iff.mpr hg
  refine ⟨fun hgf => ?_, by omega⟩
  rw [hgf, List.count_singleton_self] at h
  rw [hgf] at hpos
  omega

/-- What was listed as missing before. -/
theorem missing_read (h : Assembled cardId reads c seen b) {g : String} (hg : g ∈ b.missingHard) :
    g ∈ seen ++ [f] ∧ ((seen ++ [f]).count g = 1 → g ≠ f ∧ b.values.get? g = none) := by
  obtain ⟨hseen, hmissing⟩ := h.missing g hg
  refine ⟨List.mem_append_left _ hseen, fun hcount => ?_⟩
  obtain ⟨hgf, hcount⟩ := count_read hseen hcount
  exact ⟨hgf, hmissing hcount⟩

/-- A hard feature is read and listed as missing. -/
theorem listed (h : Assembled cardId reads c seen b) :
    Assembled cardId reads c (seen ++ [f]) { b with missingHard := b.missingHard ++ [f] } where
  fresh g v hg hgv := by
    obtain ⟨i, hi, hfresh⟩ := h.fresh g v hg hgv
    exact ⟨i, getElem?_read hi, hfresh⟩
  hard i g hi hg := by
    rcases getElem?_read_cases hi with hi | ⟨-, rfl⟩
    · exact (h.hard i g hi hg).imp_left (List.mem_append_left _)
    · exact .inl (List.mem_append_right _ (List.mem_singleton_self _))
  staleSoft := h.staleSoft
  missing g hg := by
    rcases List.mem_append.mp hg with hg | hg
    · obtain ⟨hmem, hnone⟩ := h.missing_read hg
      exact ⟨hmem, fun hcount => (hnone hcount).2⟩
    · rw [List.mem_singleton.mp hg]
      refine ⟨List.mem_append_right _ (List.mem_singleton_self _), fun hcount => ?_⟩
      exact h.unread f fun hf => (count_read hf hcount).1 rfl
  unread g hg := h.unread g fun hs => hg (List.mem_append_left _ hs)

/-- A feature that is not hard is read and left out. -/
theorem leftOut (h : Assembled cardId reads c seen b) (hsoft : (policyOf f).freshness ≠ .hard) :
    Assembled cardId reads c (seen ++ [f]) b where
  fresh g v hg hgv := by
    obtain ⟨i, hi, hfresh⟩ := h.fresh g v hg hgv
    exact ⟨i, getElem?_read hi, hfresh⟩
  hard i g hi hg := by
    rcases getElem?_read_cases hi with hi | ⟨-, rfl⟩
    · exact h.hard i g hi hg
    · exact absurd hg hsoft
  staleSoft := h.staleSoft
  missing g hg := by
    obtain ⟨hmem, hnone⟩ := h.missing_read hg
    exact ⟨hmem, fun hcount => (hnone hcount).2⟩
  unread g hg := h.unread g fun hs => hg (List.mem_append_left _ hs)

/-- A feature is read and its value taken. -/
theorem taken (h : Assembled cardId reads c seen b) {v : PyFloat} {b' : FeatureBundle}
    (hfresh : (policyOf f).freshness = .hard → c.FreshAt cardId f (reads seen.length).now v)
    (hvalues : b'.values = b.values.set f v) (hmissing : b'.missingHard = b.missingHard)
    (hstale : ∀ g ∈ b'.staleSoft, g ∈ b.staleSoft ∨ g = f) :
    Assembled cardId reads c (seen ++ [f]) b' := by
  have hself : b'.values.get? f = some v := hvalues ▸ Dict.get?_set_self f v b.values
  have hother : ∀ g, g ≠ f → b'.values.get? g = b.values.get? g := fun g hg => by
    rw [hvalues]
    exact Dict.get?_set_of_ne hg
  refine ⟨fun g w hg hgw => ?_, fun i g hi hg => ?_, fun g hg => ?_, fun g hg => ?_, fun g hg => ?_⟩
  · by_cases hgf : g = f
    · subst hgf
      rw [hself] at hgw
      cases hgw
      exact ⟨seen.length, List.getElem?_concat_length, hfresh hg⟩
    · rw [hother g hgf] at hgw
      obtain ⟨i, hi, hf⟩ := h.fresh g w hg hgw
      exact ⟨i, getElem?_read hi, hf⟩
  · rw [hmissing]
    rcases getElem?_read_cases hi with hbefore | ⟨rfl, rfl⟩
    · by_cases hgf : g = f
      · subst hgf
        rcases h.hard i g hbefore hg with hm | ⟨w, -, e, he, hew, hage⟩
        · exact .inl hm
        · obtain ⟨e', he', hev, -⟩ := hfresh hg
          rw [he] at he'
          cases he'
          exact .inr ⟨v, hself, e, he, hev, hage⟩
      · rw [hother g hgf]
        exact h.hard i g hbefore hg
    · exact .inr ⟨v, hself, hfresh hg⟩
  · by_cases hgf : g = f
    · rw [hgf, hself]
      exact Option.some_ne_none v
    · rw [hother g hgf]
      exact h.staleSoft g ((hstale g hg).resolve_right hgf)
  · rw [hmissing] at hg
    obtain ⟨hmem, hnone⟩ := h.missing_read hg
    refine ⟨hmem, fun hcount => ?_⟩
    obtain ⟨hgf, hnone⟩ := hnone hcount
    rw [hother g hgf]
    exact hnone
  · have hgf : g ≠ f := fun hgf => hg (by rw [hgf]; simp)
    rw [hother g hgf]
    exact h.unread g fun hs => hg (List.mem_append_left _ hs)

/-- **One read.** -/
theorem add (h : Assembled cardId reads c seen b) (f : String) :
    Assembled cardId reads c (seen ++ [f])
      (b.add f (c.look cardId f (reads seen.length).now).1
        (c.look cardId f (reads seen.length).now).2) := by
  rcases b.add_cases f (c.look cardId f (reads seen.length).now).1
    (c.look cardId f (reads seen.length).now).2 with ⟨-, hadd⟩ | ⟨hsoft, hadd⟩ |
      ⟨v, hv, hstale, hvalues, hmissing, hsofts⟩
  · rw [hadd]
    exact h.listed
  · rw [hadd]
    exact h.leftOut hsoft
  · exact h.taken (fun hard => FeatureCache.freshAt_of_look hard (Prod.ext hv (hstale hard))) hvalues
      hmissing hsofts

end Read

/-- What holds of the reads made holds of the features wanted. -/
theorem missing_of_prefix (h : Assembled cardId reads c seen b) {wanted : List String}
    (hp : seen <+: wanted) {f : String} (hf : f ∈ b.missingHard) (hcount : wanted.count f = 1) :
    b.values.get? f = none := by
  obtain ⟨hseen, hmissing⟩ := h.missing f hf
  refine hmissing ?_
  have h₁ := List.count_pos_iff.mpr hseen
  have h₂ := hp.sublist.count_le f
  omega

end Assembled

/-! ## The loop -/

section Loop

variable {cardId : PyStr} {reads : ℕ → CacheRead} {c : FeatureCache}

/-- **The loop accounts for the reads it makes.** It makes all of them unless the cache is down. -/
theorem assembleLoop_assembled (fs : List String) : ∀ {seen : List String} {b : FeatureBundle}
    {c' : FeatureCache}, Assembled cardId reads c seen b → b.cacheDown = false →
    c'.entries = c.entries →
    (∃ made, made <+: seen ++ fs ∧
      Assembled cardId reads c made (assembleLoop cardId reads seen.length fs b c').1) ∧
    ((assembleLoop cardId reads seen.length fs b c').1.cacheDown = false →
      Assembled cardId reads c (seen ++ fs) (assembleLoop cardId reads seen.length fs b c').1 ∧
      ∀ i < fs.length, c'.available = true ∧ (reads (seen.length + i)).goesDown = false) := by
  induction fs with
  | nil =>
    intro seen b c' h _ _
    rw [List.append_nil, assembleLoop]
    exact ⟨⟨seen, List.prefix_rfl, h⟩, fun _ => ⟨h, fun i hi => absurd hi (Nat.not_lt_zero i)⟩⟩
  | cons f fs ih =>
    intro seen b c' h hdown hentries
    rw [assembleLoop]
    cases hget : (c'.meet (reads seen.length)).get cardId f (reads seen.length).now with
    | none =>
      refine ⟨⟨seen, List.prefix_append _ _, ?_⟩, fun hup => by cases hup⟩
      exact ⟨h.fresh, h.hard, h.staleSoft, h.missing, h.unread⟩
    | some r =>
      obtain ⟨⟨value, stale⟩, c''⟩ := r
      obtain ⟨hup, hr, hentries', hup'⟩ := FeatureCache.get_cases hget
      have hlook : (value, stale) = c.look cardId f (reads seen.length).now :=
        hr.trans (FeatureCache.look_congr hentries)
      have hadd := h.add f
      rw [← hlook] at hadd
      have hlen : seen.length + 1 = (seen ++ [f]).length := by simp
      obtain ⟨hmade, hall⟩ := ih hadd ((b.cacheDown_add f value stale).trans hdown)
        (hentries'.trans hentries)
      dsimp only
      rw [hlen, List.append_cons]
      refine ⟨hmade, fun hup'' => ?_⟩
      obtain ⟨hassembled, hreads⟩ := hall hup''
      simp only [FeatureCache.meet, Bool.and_eq_true, Bool.not_eq_true'] at hup
      refine ⟨hassembled, fun i hi => ?_⟩
      cases i with
      | zero => exact hup
      | succ i =>
        refine ⟨hup.1, ?_⟩
        have := (hreads i (by simpa using hi)).2
        rw [← hlen] at this
        rwa [Nat.add_assoc, Nat.add_comm 1] at this

/-- What a bundle tells of the reads made. -/
theorem assemble_assembled (cardId : PyStr) (reads : ℕ → CacheRead) (wanted : List String)
    (c : FeatureCache) :
    (∃ made, made <+: wantedOrAll wanted ∧
      Assembled cardId reads c made (assemble cardId reads wanted c).1) ∧
    ((assemble cardId reads wanted c).1.cacheDown = false →
      Assembled cardId reads c (wantedOrAll wanted) (assemble cardId reads wanted c).1 ∧
      ∀ i < (wantedOrAll wanted).length, c.available = true ∧ (reads i).goesDown = false) := by
  have h := assembleLoop_assembled (wantedOrAll wanted)
    (Assembled.nil : Assembled cardId reads c [] {}) rfl (rfl : c.entries = c.entries)
  simp only [List.nil_append, List.length_nil, Nat.zero_add] at h
  exact h

/-- **A usable bundle has every hard feature wanted, from reads at which it was fresh**, and no read
failed. -/
theorem assemble_fresh {wanted : List String}
    (h : (assemble cardId reads wanted c).1.usableForModel = true) :
    (∀ i < (wantedOrAll wanted).length, c.available = true ∧ (reads i).goesDown = false) ∧
      ∀ i f, (wantedOrAll wanted)[i]? = some f → (policyOf f).freshness = .hard →
        ∃ v, (assemble cardId reads wanted c).1.values.get? f = some v ∧
          c.FreshAt cardId f (reads i).now v := by
  simp only [FeatureBundle.usableForModel, Bool.and_eq_true, List.isEmpty_iff,
    Bool.not_eq_true'] at h
  obtain ⟨hmissing, hdown⟩ := h
  obtain ⟨hassembled, hreads⟩ := (assemble_assembled cardId reads wanted c).2 hdown
  refine ⟨hreads, fun i f hi hard => ?_⟩
  rcases hassembled.hard i f hi hard with hm | hfresh
  · rw [hmissing] at hm
    cases hm
  · exact hfresh

end Loop

/-! ## Stale soft features -/

namespace FeatureCache

/-- The soft feature is stale at the read of a number. -/
def staleSoftAt (cardId : PyStr) (reads : ℕ → CacheRead) (c : FeatureCache) (p : String × ℕ) : Bool :=
  (policyOf p.1).freshness = .soft ∧ (c.look cardId p.1 (reads p.2).now).2 = true

theorem staleSoftAt_congr {c c' : FeatureCache} (h : c'.entries = c.entries) (cardId : PyStr)
    (reads : ℕ → CacheRead) : staleSoftAt cardId reads c' = staleSoftAt cardId reads c := by
  funext p
  unfold staleSoftAt
  rw [look_congr h]

end FeatureCache

/-- An answer of the cache adds a stale soft feature. -/
theorem FeatureBundle.staleSoft_add (b : FeatureBundle) (cardId : PyStr) (f : String) (now : ℚ)
    (c : FeatureCache) : (b.add f (c.look cardId f now).1 (c.look cardId f now).2).staleSoft =
      b.staleSoft ++
        if (policyOf f).freshness = .soft ∧ (c.look cardId f now).2 = true then [f] else [] := by
  unfold FeatureCache.look
  split
  · simp [add]
    split <;> rfl
  · rename_i e he
    by_cases hstale : 0 < (policyOf f).ttlS ∧ ((policyOf f).ttlS : ℚ) < now - e.writtenAt <;>
      cases hp : (policyOf f).freshness <;> simp [add, hstale, hp]

section Loop

variable {cardId : PyStr} {reads : ℕ → CacheRead}

/-- The features that a loop lists as stale. -/
theorem assembleLoop_staleSoft (fs : List String) : ∀ {n : ℕ} {b : FeatureBundle} {c : FeatureCache},
    (assembleLoop cardId reads n fs b c).1.cacheDown = false →
    (assembleLoop cardId reads n fs b c).1.staleSoft =
      b.staleSoft ++ ((fs.zipIdx n).filter (c.staleSoftAt cardId reads)).map Prod.fst := by
  induction fs with
  | nil =>
    intro n b c _
    simp [assembleLoop]
  | cons f fs ih =>
    intro n b c hdown
    rw [assembleLoop] at hdown ⊢
    cases hget : (c.meet (reads n)).get cardId f (reads n).now with
    | none =>
      rw [hget] at hdown
      cases hdown
    | some r =>
      obtain ⟨⟨value, stale⟩, c'⟩ := r
      obtain ⟨-, hr, hentries, -⟩ := FeatureCache.get_cases hget
      have hsame : c'.entries = c.entries := hentries
      have hlook : (value, stale) = c.look cardId f (reads n).now := hr
      rw [hget] at hdown
      dsimp only at hdown ⊢
      have hadd := b.staleSoft_add cardId f (reads n).now c
      rw [← hlook] at hadd
      rw [ih hdown, hadd, FeatureCache.staleSoftAt_congr hsame, List.zipIdx_cons, List.append_assoc]
      congr 1
      by_cases h : c.staleSoftAt cardId reads (f, n) = true
      · rw [List.filter_cons_of_pos h]
        simp only [FeatureCache.staleSoftAt, ← hlook, decide_eq_true_eq] at h
        rw [if_pos h]
        rfl
      · rw [List.filter_cons_of_neg h]
        simp only [FeatureCache.staleSoftAt, ← hlook, decide_eq_true_eq] at h
        rw [if_neg h]
        rfl

end Loop

/-! ## The model stage -/

namespace Gateway

variable {V A : Type*} [VelocityCounter V]

/-- `decide` asks the model. -/
def AsksModel (g : Gateway V A) (c : Circumstances) (req : Request) : Prop :=
  req.Admitted ∧ (g.answers c req).Asks ∧ (g.answers c req).isOpen = false

/-- **When the model is not asked, its answer makes no difference.** -/
theorem decide_without_model [AuditSink A] {g : Gateway V A} {c : Circumstances} {req : Request}
    (h : ¬ g.AsksModel c req) (score : Request → Option Score) :
    g.decide { c with score } req = g.decide c req := by
  unfold decide
  by_cases hinvalid : req.amountMinor ≤ 0 ∨ req.currency.length ≠ 3
  · rw [if_pos hinvalid, if_pos hinvalid]
    rfl
  by_cases hb : req.Blocklisted
  · simp only [if_neg hinvalid, if_pos hb]
    rfl
  have hadm : req.Admitted := ⟨not_not.mp fun hv => hinvalid (Request.not_valid_iff.mp hv), hb⟩
  -- no other stage of the call reads the model's answer
  have hrecord : ∀ stage, (record { c with score } stage : Gateway V A → _) = record c stage :=
    fun _ => rfl
  have hfinish : ∀ (g' : Gateway V A) d s x rs,
      g'.finish { c with score } req d s x rs = g'.finish c req d s x rs := fun _ _ _ _ _ => rfl
  have hfeatures : ∀ g' : Gateway V A,
      g'.assembleFeatures { c with score } req = g'.assembleFeatures c req := fun _ => rfl
  simp only [if_neg hinvalid, if_neg hb, hrecord, hfinish, hfeatures]
  split
  · rfl
  · split
    · rfl
    · rename_i he hu
      have hsame : (assembleFeatures c req (record c .velocity (readVelocity req
          (record c .hotRules (record c .parseValidate g))).2)).1 = (g.assembleFeatures c req).1 :=
        assembleFeatures_congr c req rfl rfl
      rw [hsame] at hu
      have hopen : (g.breaker.isOpen c.breakerNow).1 = true := by
        by_contra hclosed
        exact h ⟨hadm, ⟨he, not_not.mp hu⟩, Bool.not_eq_true _ ▸ hclosed⟩
      have hask : ∀ g' : Gateway V A, g'.breaker = g.breaker →
          g'.askModel { c with score } req = g'.askModel c req := by
        intro g' hg'
        unfold askModel
        rw [hg']
        simp only [hopen, if_true]
      rw [hask]
      rw [record, (assembleFeatures_snd c req _).choose_spec]
      rfl

/-- What is decided when the model is asked and answers. -/
theorem decide_of_asks [AuditSink A] {g : Gateway V A} {c : Circumstances} {req : Request}
    (h : g.AsksModel c req) {x : Score} (hx : c.score req = some x) :
    (g.decide c req).1.source = .model ∧ (g.decide c req).1.score = some x ∧
      (g.decide c req).1.decision =
        judge (effectiveThreshold g.modelThreshold (g.answers c req).features).1 x.value := by
  obtain ⟨hadm, ⟨he, hu⟩, hopen⟩ := h
  have hscored : (g.answers c req).scored = some x := by
    rw [Answers.scored, hopen]
    exact hx
  obtain ⟨g', -, hdecide⟩ := decide_settled c req g
  rw [hdecide, ruling, if_neg (not_not.mpr hadm.1), if_neg hadm.2, if_neg he,
    if_neg (not_not.mpr hu), hscored]
  exact ⟨rfl, rfl, rfl⟩

/-- A decision by the model comes from asking it. -/
theorem asks_of_source [AuditSink A] {g : Gateway V A} {c : Circumstances} {req : Request}
    (h : (g.decide c req).1.source = .model) : g.AsksModel c req ∧ ∃ x, c.score req = some x := by
  obtain ⟨g', -, hdecide⟩ := decide_settled c req g
  rw [hdecide] at h
  change (ruling req g.modelThreshold (g.answers c req)).source = .model at h
  unfold ruling at h
  split at h
  · cases h
  split at h
  · cases h
  split at h
  · cases h
  split at h
  · cases h
  rename_i hv hb he hu
  split at h
  · cases h
  · rename_i x hscored
    unfold Answers.scored at hscored
    split at hscored
    · cases hscored
    · rename_i hopen
      exact ⟨⟨⟨not_not.mp hv, hb⟩, ⟨he, not_not.mp hu⟩, by simpa using hopen⟩, x, hscored⟩

/-- The features of a gateway with a feature cache are those of its bundle. -/
theorem features_of_cache {g : Gateway V A} {cache : FeatureCache} (h : g.featureCache = some cache)
    (c : Circumstances) (req : Request) :
    (g.answers c req).features = (assemble req.cardId c.cacheReads [] cache).1.toFeatures := by
  change (g.assembleFeatures c req).1 = _
  unfold assembleFeatures
  rw [h]

variable [AuditSink A]

/-- **The model is never asked with a stale or missing hard feature.** Whatever the cache holds, the
clocks say and the features wanted are, and wherever the cache goes down: a bundle is usable only if
no read failed and every hard feature wanted is in it from a fresh entry; a hard value comes from a
read at which it was fresh; a stale soft feature has a value, and a hard feature that is missing and
wanted once has none. So a gateway with a feature cache asks the model only when `velocity_24h` was
fresh at its read, and otherwise decides the same whatever the model would answer. -/
theorem asks_fresh (cache : FeatureCache) :
    (∀ (cardId : PyStr) (reads : ℕ → CacheRead) (wanted : List String),
      let b := (assemble cardId reads wanted cache).1
      (b.usableForModel = true →
        (∀ i < (wantedOrAll wanted).length,
          cache.available = true ∧ (reads i).goesDown = false) ∧
        ∀ i f, (wantedOrAll wanted)[i]? = some f → (policyOf f).freshness = .hard →
          ∃ v, b.values.get? f = some v ∧ cache.FreshAt cardId f (reads i).now v) ∧
      (∀ f v, (policyOf f).freshness = .hard → b.values.get? f = some v →
        ∃ i, (wantedOrAll wanted)[i]? = some f ∧ cache.FreshAt cardId f (reads i).now v) ∧
      (∀ f ∈ b.staleSoft, b.values.get? f ≠ none) ∧
      ∀ f ∈ b.missingHard, (wantedOrAll wanted).count f = 1 → b.values.get? f = none) ∧
    ∀ (g : Gateway V A) (c : Circumstances) (req : Request), g.featureCache = some cache →
      (g.AsksModel c req →
        ∃ v, cache.FreshAt req.cardId "velocity_24h" (c.cacheReads 0).now v) ∧
      (¬ g.AsksModel c req →
        ∀ score, g.decide { c with score } req = g.decide c req) := by
  refine ⟨fun cardId reads wanted => ?_, fun g c req hcache => ⟨fun hasks => ?_, ?_⟩⟩
  · obtain ⟨made, hprefix, hmade⟩ := (assemble_assembled cardId reads wanted cache).1
    refine ⟨assemble_fresh, fun f v hard hv => ?_, hmade.staleSoft, fun f hf hcount => ?_⟩
    · obtain ⟨i, hi, hfresh⟩ := hmade.fresh f v hard hv
      refine ⟨i, ?_, hfresh⟩
      obtain ⟨rest, hrest⟩ := hprefix
      rw [← hrest, List.getElem?_append_left (List.getElem?_eq_some_iff.mp hi).1, hi]
    · exact hmade.missing_of_prefix hprefix hf hcount
  · have husable := hasks.2.1.2
    rw [features_of_cache hcache] at husable
    -- `velocity_24h` is the first of all the features
    obtain ⟨v, -, hfresh⟩ := (assemble_fresh husable).2 0 "velocity_24h" rfl rfl
    exact ⟨v, hfresh⟩
  · exact fun h => decide_without_model h

/-- A cache with a velocity written at time `0`. -/
def velocityCache : FeatureCache where
  entries := [(FeatureCache.entryKey [] "velocity_24h", ⟨.ofInt 3, 0⟩)]

/-- Ten seconds later the model is asked. -/
theorem asks_fresh_young : ∃ v, velocityCache.FreshAt [] "velocity_24h" 10 v :=
  ((asks_fresh velocityCache).2 { inProcess {} with featureCache := some velocityCache }
    { (idleCall [] 100 1).circumstances with cacheReads := fun _ => { now := 10 } }
    (idleCall [] 100 1).request rfl).1
    ⟨by decide +kernel, by decide +kernel, by decide +kernel⟩

end Gateway
