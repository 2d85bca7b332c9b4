import LinuxKernelTest.XArrayFind

/-!
# XArray : the normal API

`xa_load`, `xa_store`, `xa_erase`, `__xa_insert`, `__xa_cmpxchg`, `xa_store_range`, the
mark functions and `xa_find`, `xa_find_after` of `lib/xarray.c`, on a single thread : the
lock is held or not needed. A function that returns a pointer which may carry an error
number answers an `Except Errno XaEntry`.
-/

namespace LinuxKernelTest

/-- `xas_retry` -/
def xasRetry (xas : XaState) (entry : XaEntry) : Bool × XaState :=
  if xaIsZero entry then (true, xas)
  else if ¬xaIsRetry entry then (false, xas)
  else (true, { xas with xaNode := .restart })

/-- `xas_result` -/
def xasResult (xas : XaState) (curr : XaEntry) : Except Errno XaEntry :=
  if xaIsZero curr then .ok .null
  else
    match xasError xas with
    | some e => .error e
    | none => .ok curr

variable (xa : XArray)

/-- `__xas_nomem` (and `xas_nomem`) : the answer tells whether to try again. A node that
was preallocated and not used is released. -/
def xasNomem (xas : XaState) : Bool × XArray × XaState :=
  if xas.xaNode ≠ .error .enomem then (false, xa, { xas with xaAlloc := none })
  else
    match kmemCacheAlloc xa with
    | (xa, none) => (false, xa, { xas with xaAlloc := none })
    | (xa, some n) =>
      (true, xa.setParent n none, { xas with xaAlloc := some n, xaNode := .restart })

/-- A `do … while (__xas_nomem(&xas, gfp))` loop with body `body`. -/
def nomemLoop (body : XArray → XaState → Option (XArray × XaState × XaEntry))
    (xa : XArray) (xas : XaState) : Option (XArray × XaState × XaEntry) :=
  (runLoop (fun s : XArray × XaState =>
    match body s.1 s.2 with
    | none => .done none
    | some (xa, xas, curr) =>
      match xasNomem xa xas with
      | (true, xa, xas) => .again (xa, xas)
      | (false, xa, xas) => .done (some (xa, xas, curr))) xaFuel (xa, xas)).join

/-! ## Single entries -/

variable (index : ℕ)

/-- `xa_load` -/
def xaLoad : Option XaEntry :=
  (runLoop (fun xas =>
    match xasLoad xa xas with
    | none => .done none
    | some (entry, xas) =>
      let entry := if xaIsZero entry then .null else entry
      match xasRetry xas entry with
      | (true, xas) => .again xas
      | (false, _) => .done (some entry)) xaFuel (xaStateInit index)).join

/-- `xa_erase` (and `__xa_erase`) -/
def xaErase : Option (XArray × Except Errno XaEntry) :=
  (xasStore xa (xaStateInit index) .null).map fun
    | (xa, xas, curr) => (xa, xasResult xas curr)

/-- `xa_store` (and `__xa_store`) -/
def xaStore (entry : XaEntry) : Option (XArray × Except Errno XaEntry) :=
  if xaIsAdvanced entry then some (xa, .error .einval)
  else
    let entry := if xa.trackFree ∧ entry = .null then .zero else entry
    (nomemLoop (fun xa xas =>
      (xasStore xa xas entry).bind fun
        | (xa, xas, curr) =>
          if xa.trackFree then (xasClearMark xa xas xaFreeMark).map fun xa => (xa, xas, curr)
          else some (xa, xas, curr)) xa (xaStateInit index)).map fun
      | (xa, xas, curr) => (xa, xasResult xas curr)

/-- `__xa_cmpxchg` -/
def xaCmpxchg (old entry : XaEntry) : Option (XArray × Except Errno XaEntry) :=
  if xaIsAdvanced entry then some (xa, .error .einval)
  else
    (nomemLoop (fun xa xas =>
      (xasLoad xa xas).bind fun
        | (curr, xas) =>
          if curr = old then
            (xasStore xa xas entry).bind fun
              | (xa, xas, _) =>
                if xa.trackFree ∧ entry ≠ .null ∧ curr = .null then
                  (xasClearMark xa xas xaFreeMark).map fun xa => (xa, xas, curr)
                else some (xa, xas, curr)
          else some (xa, xas, curr)) xa (xaStateInit index)).map fun
      | (xa, xas, curr) => (xa, xasResult xas curr)

/-- `__xa_insert`. The answer is the error number, `none` for `0`. -/
def xaInsert (entry : XaEntry) : Option (XArray × Option Errno) :=
  if xaIsAdvanced entry then some (xa, some .einval)
  else
    let entry := if entry = .null then .zero else entry
    (nomemLoop (fun xa xas =>
      (xasLoad xa xas).bind fun
        | (curr, xas) =>
          if curr = .null then
            (xasStore xa xas entry).bind fun
              | (xa, xas, _) =>
                if xa.trackFree then
                  (xasClearMark xa xas xaFreeMark).map fun xa => (xa, xas, curr)
                else some (xa, xas, curr)
          else some (xa, { xas with xaNode := .error .ebusy }, curr))
      xa (xaStateInit index)).map fun
      | (xa, xas, _) => (xa, xasError xas)

/-! ## Ranges -/

/-- `xas_set_order` -/
def xasSetOrder (xas : XaState) (index order : ℕ) : XaState :=
  { xas with
    xaIndex := if order < 64 then (index >>> order) <<< order else 0
    xaShift := order - order % 2
    xaSibs := (1 <<< (order % 2)) - 1
    xaNode := .restart }

/-- `__ffs` : the position of the lowest set bit of a non-zero word. -/
def ffs (word : ℕ) : ℕ := findNextBit word.testBit 64 0

/-- The loop of `xas_set_range`, with state `(shift, sibs, offset, first)`. -/
def setRangeRound : ℕ × ℕ × ℕ × ℕ → Round (ℕ × ℕ × ℕ × ℕ) (ℕ × ℕ × ℕ)
  | (shift, sibs, offset, first) =>
    if first &&& xaChunkMask ≠ 0 then .done (shift, sibs, first)
    else if sibs < xaChunkMask then .done (shift, sibs, first)
    else if sibs = xaChunkMask ∧ offset < xaChunkMask then .done (shift, sibs, first)
    else
      .again (shift + 2, sibs >>> 2,
        if offset = xaChunkMask then sibs &&& xaChunkMask else offset, first >>> 2)

/-- `xas_set_range`. `xa_shift` and `xa_sibs` are `unsigned char`. -/
def xasSetRange (xas : XaState) (first last : ℕ) : Option XaState :=
  (runLoop setRangeRound xaFuel (0, last - first, xaChunkMask, first)).map fun
    | (shift, sibs, f) =>
      let offset := f &&& xaChunkMask
      let sibs := if offset + sibs > xaChunkMask then xaChunkMask - offset else sibs
      let sibs :=
        if (((f + sibs + 1) <<< shift) % 2 ^ 64 + ulongMax) % 2 ^ 64 > last then
          (sibs + ulongMax) % 2 ^ 64
        else sibs
      { xasSet xas first with xaShift := shift % 256, xaSibs := sibs % 256 }

/-- The inner loop of `xa_store_range`, with state `(xa, xas, first)`. -/
def storeRangeRound (last : ℕ) (entry : XaEntry) :
    XArray × XaState × ℕ → Round (XArray × XaState × ℕ) (Option (XArray × XaState × ℕ))
  | (xa, xas, first) =>
    match xasSetRange xas first last with
    | none => .done none
    | some xas =>
      match xasStore xa xas entry with
      | none => .done none
      | some (xa, xas, _) =>
        if xasError xas ≠ none then .done (some (xa, xas, first))
        else
          let first := (first + xasSize xas) % 2 ^ 64
          if first ≤ last then .again (xa, xas, first) else .done (some (xa, xas, first))

/-- One pass of the outer loop of `xa_store_range` up to the label `unlock`. -/
def storeRangePass (last : ℕ) (entry : XaEntry) (xa : XArray) (xas : XaState) (first : ℕ) :
    Option (XArray × XaState × ℕ) :=
  let created : Option (XArray × XaState) :=
    if entry = .null then some (xa, xas)
    else
      let order := if (last + 1) % 2 ^ 64 = 0 then 64 else ffs (last + 1)
      (xasCreate xa (xasSetOrder xas last order) true).map fun
        | (xa, xas, _) => (xa, xas)
  created.bind fun
    | (xa, xas) =>
      if xasError xas ≠ none then some (xa, xas, first)
      else (runLoop (storeRangeRound last entry) xaFuel (xa, xas, first)).join

/-- `xa_store_range` -/
def xaStoreRange (first last : ℕ) (entry : XaEntry) : Option (XArray × Except Errno XaEntry) :=
  if xaIsInternal entry then some (xa, .error .einval)
  else if last < first then some (xa, .error .einval)
  else
    (runLoop (fun s : XArray × XaState × ℕ =>
      match storeRangePass last entry s.1 s.2.1 s.2.2 with
      | none => .done none
      | some (xa, xas, first) =>
        match xasNomem xa xas with
        | (true, xa, xas) => .again (xa, xas, first)
        | (false, xa, xas) => .done (some (xa, xasResult xas .null)))
      xaFuel (xa, xaStateInit 0, first)).join

/-! ## Marks -/

variable (m : XaMark)

/-- `xa_set_mark` -/
def xaSetMark : Option XArray :=
  (xasLoad xa (xaStateInit index)).bind fun
    | (entry, xas) => if entry ≠ .null then xasSetMark xa xas m else some xa

/-- `xa_clear_mark` -/
def xaClearMark : Option XArray :=
  (xasLoad xa (xaStateInit index)).bind fun
    | (entry, xas) => if entry ≠ .null then xasClearMark xa xas m else some xa

/-- One round of `xa_get_mark`. -/
def getMarkRound : XaEntry × XaState → Round (XaEntry × XaState) Bool
  | (entry, xas) =>
    if xasGetMark xa xas m then
      match entry with
      | .node n => .again (xasDescend xa xas n)
      | _ => .done true
    else .done false

/-- `xa_get_mark` -/
def xaGetMark : Option Bool :=
  runLoop (getMarkRound xa m) xaFuel (xasStart xa (xaStateInit index))

/-! ## Searching -/

/-- The selection of `xa_find` : `XA_PRESENT` or a mark. -/
inductive XaFilter
  | present
  | mark (m : XaMark)
  deriving DecidableEq, Repr

/-- `xas_find` or `xas_find_marked`, as the filter asks. -/
def xasFindFilter (xas : XaState) (max : ℕ) : XaFilter → Option (XaEntry × XaState)
  | .present => xasFind xa xas max
  | .mark m => xasFindMarked xa xas max m

/-- One round of `xa_find`. -/
def xaFindRound (max : ℕ) (filter : XaFilter) (xas : XaState) :
    Round XaState (Option (XaEntry × ℕ)) :=
  match xasFindFilter xa xas max filter with
  | none => .done none
  | some (entry, xas) =>
    match xasRetry xas entry with
    | (true, xas) => .again xas
    | (false, xas) => .done (some (entry, xas.xaIndex))

/-- `xa_find` : the entry and the new `*indexp`. -/
def xaFind (index max : ℕ) (filter : XaFilter) : Option (XaEntry × ℕ) :=
  (runLoop (xaFindRound xa max filter) xaFuel (xaStateInit index)).join.map fun
    | (entry, i) => (entry, if entry = .null then index else i)

/-- `xas_sibling` -/
def xasSibling (xas : XaState) : Bool :=
  match xas.xaNode with
  | .node n =>
    (xas.xaIndex &&& ((xaChunkSize <<< xa.shift n) % 2 ^ 64 + ulongMax) % 2 ^ 64) >
      (xas.xaOffset <<< xa.shift n) % 2 ^ 64
  | _ => false

/-- One round of `xa_find_after`. -/
def xaFindAfterRound (max : ℕ) (filter : XaFilter) (xas : XaState) :
    Round XaState (Option (XaEntry × ℕ)) :=
  match xasFindFilter xa xas max filter with
  | none => .done none
  | some (entry, xas) =>
    if xasInvalid xas then .done (some (entry, xas.xaIndex))
    else if xasSibling xa xas then .again xas
    else
      match xasRetry xas entry with
      | (true, xas) => .again xas
      | (false, xas) => .done (some (entry, xas.xaIndex))

/-- `xa_find_after` : the entry and the new `*indexp`. -/
def xaFindAfter (index max : ℕ) (filter : XaFilter) : Option (XaEntry × ℕ) :=
  if (index + 1) % 2 ^ 64 = 0 then some (.null, index)
  else
    (runLoop (xaFindAfterRound xa max filter) xaFuel
      (xaStateInit ((index + 1) % 2 ^ 64))).join.map fun
      | (entry, i) => (entry, if entry = .null then index else i)

/-- `xa_for_each_range`, and `xa_for_each_marked` from `start` on : `xa_find`, then
`xa_find_after` until it finds nothing. -/
def xaForEachRange (start last : ℕ) (filter : XaFilter) (fuel : ℕ) : Option (List (ℕ × XaEntry)) :=
  (xaFind xa start last filter).bind
    (iterate id (fun index => xaFindAfter xa index last filter) fuel)

/-! ## Runs -/

/-- A call of the normal API on one index. -/
inductive XaOp
  | store (index : ℕ) (entry : XaEntry)
  | erase (index : ℕ)
  | insert (index : ℕ) (entry : XaEntry)
  | cmpxchg (index : ℕ) (old entry : XaEntry)
  | setMark (index : ℕ) (m : XaMark)
  | clearMark (index : ℕ) (m : XaMark)

/-- What a call answers : an entry or an error, an error number, or nothing. -/
inductive XaAnswer
  | entry (r : Except Errno XaEntry)
  | errno (r : Option Errno)
  | unit
  deriving DecidableEq

/-- Run one call. -/
def XaOp.run : XaOp → Option (XArray × XaAnswer)
  | .store i e => (xaStore xa i e).map fun r => (r.1, .entry r.2)
  | .erase i => (xaErase xa i).map fun r => (r.1, .entry r.2)
  | .insert i e => (xaInsert xa i e).map fun r => (r.1, .errno r.2)
  | .cmpxchg i old e => (xaCmpxchg xa i old e).map fun r => (r.1, .entry r.2)
  | .setMark i m => (xaSetMark xa i m).map fun xa => (xa, .unit)
  | .clearMark i m => (xaClearMark xa i m).map fun xa => (xa, .unit)

end LinuxKernelTest
