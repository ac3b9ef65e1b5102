import PreauthGateway.Gateway.Freshness
import PreauthGateway.Gateway.RateLimit
import PreauthGateway.Program.Isolation

/-!
# Cards do not influence each other

The velocity counter and the feature cache keep what they know of a card under keys made from its
id. The key of a feature is the id, a colon and the name of the feature, with nothing escaped; as no
feature that has a policy has a colon in its name, the last colon of a key is where the id ends,
whatever the id.

## Main definitions

* `CardStores`, `CardOp`, `CardStores.step`: the two stores, and the calls made for a card
* `CardStores.view`: what the stores hold of a card

## Main results

* `FeatureCache.entryKey_injective`: **keys of different cards differ**
* `CardStores.isolates`: the calls for other cards leave the view of a card alone
* `CardStores.cards_isolated`: **counts and features depend on the calls for the card alone**
-/

/-- The name of the feature has no colon. -/
def ColonFree (feature : String) : Prop := ':' ∉ feature.toList

instance (feature : String) : Decidable (ColonFree feature) := inferInstanceAs (Decidable (¬ _))

theorem colonFree_of_policy : ∀ f ∈ featurePolicy.map Prod.fst, ColonFree f := by decide

/-- **The keys of features tell the cards apart.** -/
theorem FeatureCache.entryKey_injective {card card' : PyStr} {f f' : String} (hf : ColonFree f)
    (hf' : ColonFree f') (h : entryKey card f = entryKey card' f') : card = card' ∧ f = f' := by
  have hcolon {g : String} (hg : ColonFree g) : CodePoint.ofChar ':' ∉ PyStr.ofString g := fun hmem => by
    obtain ⟨c, hc, he⟩ := List.mem_map.mp hmem
    exact hg (CodePoint.ofChar_injective he ▸ hc)
  have hsplit (key : PyStr) (g : String) :
      entryKey key g = key ++ CodePoint.ofChar ':' :: PyStr.ofString g := List.append_assoc _ _ _
  rw [hsplit, hsplit] at h
  obtain ⟨hcard, hname⟩ := PyStr.append_cons_inj_of_notMem_right (hcolon hf) (hcolon hf') h
  exact ⟨hcard, String.toList_inj.mp (List.map_injective_iff.mpr CodePoint.ofChar_injective hname)⟩

/-! ## The calls for a card -/

/-- A call for a card: `put` of a feature at a time, or a call of the counter under the key of the
card. -/
inductive CardOp
  | put (feature : String) (value : PyFloat) (ageS now : ℚ)
  | incrAndCount (nowMs : ℤ)
  | count (nowMs : ℤ)

/-- A feature that is put has a policy. -/
def CardOp.Declared : CardOp → Prop
  | .put feature _ _ _ => feature ∈ featurePolicy.map Prod.fst
  | .incrAndCount _ | .count _ => True

/-- The feature cache and the velocity counter. -/
structure CardStores where
  cache : FeatureCache := {}
  velocity : SafeCounter := {}

/-- What the stores hold of a card. -/
structure CardView where
  windowMs : ℕ
  available : Bool
  queue : List ℤ
  cacheUp : Bool
  entry : {f : String // ColonFree f} → Option CacheEntry

namespace CardStores

/-- A call for a card, answered with the count. -/
def step (s : CardStores) : PyStr × CardOp → Option ℕ × CardStores
  | (card, .put feature value ageS now) =>
    (none, { s with cache := s.cache.put card feature value ageS now })
  | (card, .incrAndCount nowMs) =>
    let r := s.velocity.step (.incrAndCount (cardKey card) nowMs)
    (r.1, { s with velocity := r.2 })
  | (card, .count nowMs) =>
    let r := s.velocity.step (.count (cardKey card) nowMs)
    (r.1, { s with velocity := r.2 })

def view (card : PyStr) (s : CardStores) : CardView where
  windowMs := s.velocity.windowMs
  available := s.velocity.available
  queue := s.velocity.data (cardKey card)
  cacheUp := s.cache.available
  entry f := s.cache.entries.get? (FeatureCache.entryKey card f)

variable {s t : CardStores} {card card' : PyStr}

/-- A call of the counter shows in the view of its card only through the queue. -/
theorem view_counter (s : CardStores) (op : CounterOp) :
    view card { s with velocity := (s.velocity.step op).2 } =
      { view card s with queue := (s.velocity.step op).2.data (cardKey card) } := by
  rw [view, view, SafeCounter.windowMs_step, SafeCounter.available_step]

/-- The counter answers a call from the queue of its key. -/
theorem own_counter {op : CounterOp} (hop : op.key = cardKey card) (h : view card s = view card t) :
    (s.velocity.step op).1 = (t.velocity.step op).1 ∧
      view card { s with velocity := (s.velocity.step op).2 } =
        view card { t with velocity := (t.velocity.step op).2 } := by
  obtain ⟨hwindow, havail, hqueue, -, -⟩ := CardView.mk.inj h
  have hpop : s.velocity.popExpired (cardKey card) op.nowMs =
      t.velocity.popExpired (cardKey card) op.nowMs := by
    rw [SafeCounter.popExpired, SafeCounter.popExpired, hwindow, hqueue]
  rw [view_counter, view_counter, h]
  cases op with
  | incrAndCount key nowMs =>
    obtain rfl : key = cardKey card := hop
    dsimp only [SafeCounter.step, CounterOp.nowMs] at hpop ⊢
    cases hup : t.velocity.available with
    | true =>
      rw [hup] at havail
      rw [SafeCounter.incrAndCount_fst havail, SafeCounter.incrAndCount_fst hup,
        SafeCounter.data_incrAndCount_self havail, SafeCounter.data_incrAndCount_self hup, hpop]
      exact ⟨rfl, rfl⟩
    | false =>
      rw [hup] at havail
      rw [SafeCounter.incrAndCount, SafeCounter.incrAndCount, havail, hup]
      exact ⟨rfl, congrArg (fun q => { view card t with queue := q }) hqueue⟩
  | count key nowMs =>
    obtain rfl : key = cardKey card := hop
    dsimp only [SafeCounter.step, CounterOp.nowMs] at hpop ⊢
    rw [SafeCounter.data_count_self, SafeCounter.data_count_self, SafeCounter.count,
      SafeCounter.count, hpop]
    exact ⟨rfl, rfl⟩

/-- A call for a card is answered from the view of the card, and moves it. -/
theorem own_step (s t : CardStores) (op : CardOp) (h : view card s = view card t) :
    (s.step (card, op)).1 = (t.step (card, op)).1 ∧
      view card (s.step (card, op)).2 = view card (t.step (card, op)).2 := by
  cases op with
  | put feature value ageS now =>
    obtain ⟨hwindow, havail, hqueue, hcache, hentry⟩ := CardView.mk.inj h
    refine ⟨rfl, ?_⟩
    rw [step, step, view, view, hwindow, havail, hqueue]
    dsimp only [FeatureCache.put]
    rw [hcache]
    congr 1
    funext f
    by_cases hkey : FeatureCache.entryKey card f = FeatureCache.entryKey card feature
    · rw [hkey, Dict.get?_set_self, Dict.get?_set_self]
    · rw [Dict.get?_set_of_ne hkey, Dict.get?_set_of_ne hkey]
      exact congrFun hentry f
  | incrAndCount nowMs => exact own_counter rfl h
  | count nowMs => exact own_counter rfl h

/-- A call for another card leaves the view of the card. -/
theorem other_step (s : CardStores) {op : CardOp} (hop : op.Declared) (hcard : card' ≠ card) :
    view card (s.step (card', op)).2 = view card s := by
  have hkey : cardKey card ≠ cardKey card' := cardKey_injective.ne hcard.symm
  cases op with
  | put feature value ageS now =>
    rw [step, view, view]
    congr 1
    funext f
    refine Dict.get?_set_of_ne fun hentry => hcard ?_
    exact (FeatureCache.entryKey_injective f.2 (colonFree_of_policy feature hop) hentry).1.symm
  | incrAndCount nowMs =>
    dsimp only [step]
    rw [view_counter, SafeCounter.data_step_of_ne hkey]
    rfl
  | count nowMs =>
    dsimp only [step]
    rw [view_counter, SafeCounter.data_step_of_ne hkey]
    rfl

/-- **The calls for a card are isolated from the others.** -/
theorem isolates (card : PyStr) :
    Machine.Isolates step (fun a => a.1 = card) (fun a => a.2.Declared) (view card) where
  own s t a ha h := by
    obtain ⟨_, op⟩ := a
    cases ha
    exact own_step s t op h
  other s a hop ha := other_step s hop ha

end CardStores

/-! ## The features of a card -/

theorem FeatureCache.get_of_up {c : FeatureCache} {cardId : PyStr} {f : String} {now : ℚ}
    (h : c.available = true) : ∃ c', c.get cardId f now = some (c.look cardId f now, c') ∧
      c'.entries = c.entries ∧ c'.available = true := by
  cases hget : c.get cardId f now with
  | none =>
    rw [FeatureCache.get_eq_none, h] at hget
    cases hget
  | some p =>
    obtain ⟨r, c'⟩ := p
    obtain ⟨-, rfl, hentries, hup⟩ := FeatureCache.get_cases hget
    exact ⟨c', rfl, hentries, hup⟩

/-- The bundle depends on the entries of the features read, and on whether the cache is up. -/
theorem assembleLoop_congr {card : PyStr} {reads : ℕ → CacheRead} {fs : List String} {n : ℕ}
    {b : FeatureBundle} {c d : FeatureCache} (hup : c.available = d.available)
    (hentries : ∀ f ∈ fs, c.entries.get? (FeatureCache.entryKey card f) =
      d.entries.get? (FeatureCache.entryKey card f)) :
    (assembleLoop card reads n fs b c).1 = (assembleLoop card reads n fs b d).1 := by
  induction fs generalizing n b c d with
  | nil => rfl
  | cons f fs ih =>
    obtain ⟨hf, hfs⟩ := List.forall_mem_cons.mp hentries
    rw [assembleLoop, assembleLoop]
    have hmeet : (c.meet (reads n)).available = (d.meet (reads n)).available := by
      rw [FeatureCache.meet, FeatureCache.meet, hup]
    cases hd : (d.meet (reads n)).available with
    | false =>
      -- both caches are down, and both loops stop
      rw [FeatureCache.get_eq_none.mpr hd, FeatureCache.get_eq_none.mpr (hmeet.trans hd)]
    | true =>
      obtain ⟨c', hc', hcentries, hcup⟩ := FeatureCache.get_of_up (hmeet.trans hd)
      obtain ⟨d', hd', hdentries, hdup⟩ := FeatureCache.get_of_up hd
      rw [hc', hd']
      have hlook : (c.meet (reads n)).look card f (reads n).now =
          (d.meet (reads n)).look card f (reads n).now := by
        have hentry : (c.meet (reads n)).entries.get? (FeatureCache.entryKey card f) =
            (d.meet (reads n)).entries.get? (FeatureCache.entryKey card f) := hf
        unfold FeatureCache.look
        rw [hentry]
      rw [hlook]
      refine ih (hcup.trans hdup.symm) fun g hg => ?_
      rw [hcentries, hdentries]
      exact hfs g hg

/-- The features wanted have no colon in their names when those asked for have none. -/
theorem colonFree_wantedOrAll {wanted : List String} (h : ∀ f ∈ wanted, ColonFree f) :
    ∀ f ∈ wantedOrAll wanted, ColonFree f := by
  unfold wantedOrAll
  split
  · exact colonFree_of_policy
  · exact h

namespace CardStores

/-- **Cards do not influence each other.** In two histories with the same calls for a card, in the
same order, and any calls for other cards, the calls for the card are answered with the same counts;
and at the same times `assemble` returns the same bundle for it. -/
theorem cards_isolated (card : PyStr) (s : CardStores) (as bs : List (PyStr × CardOp))
    (has : ∀ a ∈ as, a.2.Declared) (hbs : ∀ b ∈ bs, b.2.Declared)
    (hsame : as.filter (·.1 = card) = bs.filter (·.1 = card)) :
    Machine.ownReplies step (·.1 = card) s as = Machine.ownReplies step (·.1 = card) s bs ∧
      ∀ (reads : ℕ → CacheRead) (wanted : List String), (∀ f ∈ wanted, ColonFree f) →
        (assemble card reads wanted (Machine.after step s as).cache).1 =
          (assemble card reads wanted (Machine.after step s bs).cache).1 := by
  obtain ⟨hreplies, hview⟩ := (isolates card).agree has hbs (Eq.refl (view card s)) hsame
  refine ⟨hreplies, fun reads wanted hwanted => ?_⟩
  obtain ⟨-, -, -, hup, hentry⟩ := CardView.mk.inj hview
  refine assembleLoop_congr hup fun f hf => ?_
  exact congrFun hentry ⟨f, colonFree_wantedOrAll hwanted f hf⟩

/-- The card `"A"`, with and without a call for the card `"A:B"`. -/
theorem cards_isolated_colon :
    let own : List (PyStr × CardOp) :=
      [([65], .incrAndCount 0), ([65], .put "velocity_24h" (.ofInt 3) 0 0), ([65], .incrAndCount 10)]
    let other : PyStr × CardOp := ([65, 58, 66], .put "velocity_24h" (.ofInt 99) 0 0)
    Machine.ownReplies step (·.1 = [65]) {} (own ++ [other]) =
        Machine.ownReplies step (·.1 = [65]) {} own ∧
      (assemble [65] (fun _ => ⟨1, false⟩) [] (Machine.after step {} (own ++ [other])).cache).1 =
        (assemble [65] (fun _ => ⟨1, false⟩) [] (Machine.after step {} own).cache).1 := by
  intro own other
  have hown : ∀ a ∈ own, a.2.Declared := by simp [own, CardOp.Declared, featurePolicy]
  have hother : other.2.Declared := by simp [other, CardOp.Declared, featurePolicy]
  have hall : ∀ a ∈ own ++ [other], a.2.Declared := fun a ha => by
    rcases List.mem_append.mp ha with ha | ha
    · exact hown a ha
    · rw [List.mem_singleton.mp ha]
      exact hother
  obtain ⟨hreplies, hbundle⟩ := cards_isolated [65] {} (own ++ [other]) own hall hown rfl
  exact ⟨hreplies, hbundle _ [] (by simp)⟩

end CardStores
