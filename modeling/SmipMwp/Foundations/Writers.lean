import Mathlib.Data.List.Induction

/-!
# Last and first writers

A run is a list of events, each of which may write one key of a store. When an event changes the
key it writes and no other, the store ends with the value of the last event that writes a key
(`foldl_eq_lastWrite`), whatever else the events do to the state. When an event leaves a key that
has a value alone, and gives one that has none the value it writes, the store ends with the value
of the first event that writes a key (`foldl_eq_firstWrite`): a cache that is never overwritten.
-/

namespace SmipMwp

variable {σ ε κ α : Type*} [DecidableEq κ]

/-! ## The last one -/

section Last

/-- The value of the last event of `es` that writes `k`. -/
def lastWrite (key : ε → Option κ) (val : ε → α) (es : List ε) (k : κ) : Option α :=
  (es.reverse.find? fun e => key e = some k).map val

variable {key : ε → Option κ} {val : ε → α}

theorem lastWrite_concat (es : List ε) (e : ε) (k : κ) :
    lastWrite key val (es ++ [e]) k =
      if key e = some k then some (val e) else lastWrite key val es k := by
  unfold lastWrite
  rw [List.reverse_append, List.reverse_singleton, List.singleton_append, List.find?_cons]
  split_ifs with h <;> simp [h]

/-- **Last writer wins**: a store changed event by event holds at `k` what the last event that
writes `k` wrote, and what it held before if no event writes `k`. -/
theorem foldl_eq_lastWrite {step : σ → ε → σ} (get : σ → κ → α)
    (hstep : ∀ s e k, get (step s e) k = if key e = some k then val e else get s k)
    (es : List ε) (s : σ) (k : κ) :
    get (es.foldl step s) k = (lastWrite key val es k).getD (get s k) := by
  induction es using List.reverseRecOn with
  | nil => rfl
  | append_singleton es e ih =>
    rw [List.foldl_append, List.foldl_cons, List.foldl_nil, hstep, lastWrite_concat]
    split_ifs
    · rfl
    · exact ih

end Last

/-! ## The first one -/

section First

/-- The value of the first event of `es` that writes `k`. -/
def firstWrite (write : ε → Option (κ × α)) (es : List ε) (k : κ) : Option α :=
  ((es.filterMap write).find? fun p => p.1 = k).map Prod.snd

variable {write : ε → Option (κ × α)}

@[simp] theorem firstWrite_nil (k : κ) : firstWrite write [] k = none := rfl

theorem firstWrite_singleton (e : ε) (k : κ) :
    firstWrite write [e] k = (write e).bind fun p => if p.1 = k then some p.2 else none := by
  rw [firstWrite, List.filterMap_cons]
  cases write e with
  | none => rfl
  | some p =>
    simp only [List.filterMap_nil, List.find?_cons, List.find?_nil, Option.bind_some]
    split_ifs with hk <;> simp [hk]

theorem firstWrite_append (es fs : List ε) (k : κ) :
    firstWrite write (es ++ fs) k = (firstWrite write es k).or (firstWrite write fs k) := by
  rw [firstWrite, List.filterMap_append, List.find?_append, Option.map_or]
  rfl

/-- **First writer wins**: a store that takes a value for a key only when it has none holds at `k`
what it held before, and else what the first event that writes `k` wrote. -/
theorem foldl_eq_firstWrite (write : ε → Option (κ × α)) {step : σ → ε → σ}
    (get : σ → κ → Option α)
    (hstep : ∀ s e k, get (step s e) k = (get s k).or (firstWrite write [e] k))
    (es : List ε) (s : σ) (k : κ) :
    get (es.foldl step s) k = (get s k).or (firstWrite write es k) := by
  induction es using List.reverseRecOn with
  | nil => rw [List.foldl_nil, firstWrite_nil, Option.or_none]
  | append_singleton es e ih =>
    rw [List.foldl_append, List.foldl_cons, List.foldl_nil, hstep, ih, firstWrite_append,
      Option.or_assoc]

end First

end SmipMwp
