import PreauthGateway.Number.PyFloat
import PreauthGateway.Program.Dict

/-!
# The metrics registry

Histograms, counters and gauges by name; asking for one that is not there makes it.

## Main definitions

* `Metrics.Histogram`, `Metrics.Counter`, `Metrics.Gauge`, `Metrics.Registry`
* `Registry.onHistogram`, `Registry.onCounter`, `Registry.onGauge`: a metric, made if absent, and
  what is done with it

## Main results

* `Histogram.total_observeAll`: the total of a histogram is the number of observations
* `Counter.sum_inc`: an increment adds to the sum over the labels
-/

namespace Metrics

/-- `LATENCY_BUCKETS_MS`. -/
def latencyBucketsMs : List ℚ := [1, 2, 5, 10, 20, 30, 40, 50, 75, 100, 150, 250, 500, 1000]

structure Histogram where
  helpText : String
  buckets : List ℚ
  counts : Dict ℚ ℕ
  total : ℕ := 0
  sumValue : PyFloat := .ofInt 0

namespace Histogram

/-- `Histogram(name, help_text, buckets)`. -/
def withBuckets (helpText : String) (buckets : List ℚ) : Histogram where
  helpText
  buckets
  counts := buckets.map fun b => (b, 0)

/-- `Histogram(name, help_text)`. -/
def make (helpText : String) : Histogram := withBuckets helpText latencyBucketsMs

/-- The counts of the buckets after an observation. -/
def bump (value : ℚ) (buckets : List ℚ) (counts : Dict ℚ ℕ) : Dict ℚ ℕ :=
  buckets.foldl (fun d b => if value ≤ b then d.update b 0 (· + 1) else d) counts

/-- `observe`. -/
def observe (value : ℚ) (h : Histogram) : Histogram :=
  { h with
    total := h.total + 1
    sumValue := h.sumValue.add (.ofRat value)
    counts := bump value h.buckets h.counts }

/-- The observations of a list of values, in order. -/
def observeAll (values : List ℚ) (h : Histogram) : Histogram :=
  values.foldl (fun h v => h.observe v) h

theorem observeAll_append (vs ws : List ℚ) (h : Histogram) :
    h.observeAll (vs ++ ws) = (h.observeAll vs).observeAll ws := List.foldl_append

@[simp] theorem total_observe (value : ℚ) (h : Histogram) : (h.observe value).total = h.total + 1 :=
  rfl

/-- **The total of a histogram is the number of observations.** -/
theorem total_observeAll (values : List ℚ) (h : Histogram) :
    (h.observeAll values).total = h.total + values.length := by
  induction values generalizing h with
  | nil => rfl
  | cons v vs ih =>
    have hv : (h.observeAll (v :: vs)).total = ((h.observe v).observeAll vs).total := rfl
    rw [hv, ih, total_observe, List.length_cons]
    omega

end Histogram

/-- A counter: its values by labels, a list of pairs sorted by key. -/
structure Counter where
  helpText : String
  values : Dict (List (String × String)) ℕ := []

namespace Counter

/-- `inc(labels, by)`. -/
def inc (labels : Dict String String) (n : ℕ) (c : Counter) : Counter :=
  { c with
    values := c.values.update (labels.insertionSort fun a b => a.1 ≤ b.1) 0 (· + n) }

/-- The sum over the labels. -/
def sum (c : Counter) : ℕ := (c.values.map Prod.snd).sum

/-- **An increment adds to the sum over the labels.** -/
theorem sum_inc (labels : Dict String String) (n : ℕ) (c : Counter) :
    (c.inc labels n).sum = c.sum + n := Dict.sum_update _ _ _

end Counter

structure Gauge where
  helpText : String
  value : PyFloat := .ofInt 0

/-- `set` of a number of things. -/
def Gauge.set (n : ℕ) (g : Gauge) : Gauge := { g with value := .ofInt n }

structure Registry where
  histograms : Dict String Histogram := []
  counters : Dict String Counter := []
  gauges : Dict String Gauge := []

namespace Registry

/-- `histogram(name, help_text)`, and what is done with it. -/
def onHistogram (name helpText : String) (f : Histogram → Histogram) (r : Registry) : Registry :=
  { r with histograms := r.histograms.update name (.make helpText) f }

/-- `counter(name, help_text)`, and what is done with it. -/
def onCounter (name helpText : String) (f : Counter → Counter) (r : Registry) : Registry :=
  { r with counters := r.counters.update name { helpText } f }

/-- `gauge(name, help_text)`, and what is done with it. -/
def onGauge (name helpText : String) (f : Gauge → Gauge) (r : Registry) : Registry :=
  { r with gauges := r.gauges.update name { helpText } f }

/-- The sum over the labels of a counter, `0` when it was never made. -/
def counterSum (r : Registry) (name : String) : ℕ := ((r.counters.get? name).map Counter.sum).getD 0

theorem counterSum_inc_self (name helpText : String) (labels : Dict String String) (n : ℕ)
    (r : Registry) :
    (r.onCounter name helpText (·.inc labels n)).counterSum name = r.counterSum name + n := by
  unfold counterSum onCounter
  rw [Dict.get?_update_self]
  cases r.counters.get? name with
  | none => exact Counter.sum_inc _ _ _
  | some c => exact Counter.sum_inc _ _ _

theorem counterSum_onCounter_of_ne {name other : String} (h : other ≠ name) (helpText : String)
    (f : Counter → Counter) (r : Registry) :
    (r.onCounter name helpText f).counterSum other = r.counterSum other := by
  unfold counterSum onCounter
  rw [Dict.get?_update_of_ne h]

/-- The value of a counter under some labels, `0` when it was never made or incremented under
them. -/
def counterValue (r : Registry) (name : String) (labels : List (String × String)) : ℕ :=
  ((r.counters.get? name).bind fun c => c.values.get? labels).getD 0

/-- **An increment adds to the value under its labels**, and to no other. -/
theorem counterValue_inc_self (name helpText : String) (labels : Dict String String) (n : ℕ)
    (r : Registry) (l : List (String × String)) :
    (r.onCounter name helpText (·.inc labels n)).counterValue name l =
      r.counterValue name l + if l = labels.insertionSort fun a b => a.1 ≤ b.1 then n else 0 := by
  have hvalues : (((r.counters.get? name).getD { helpText }).values.get? l).getD 0 =
      r.counterValue name l := by
    unfold counterValue
    cases r.counters.get? name with
    | none => rfl
    | some c => rfl
  rw [counterValue, onCounter, Dict.get?_update_self, Option.bind_some, ← hvalues, Counter.inc]
  split_ifs with hl
  · rw [hl, Dict.get?_update_self, Option.getD_some]
  · rw [Dict.get?_update_of_ne hl, Nat.add_zero]

theorem counterValue_onCounter_of_ne {name other : String} (h : other ≠ name) (helpText : String)
    (f : Counter → Counter) (r : Registry) (l : List (String × String)) :
    (r.onCounter name helpText f).counterValue other l = r.counterValue other l := by
  unfold counterValue onCounter
  rw [Dict.get?_update_of_ne h]

end Registry

end Metrics
