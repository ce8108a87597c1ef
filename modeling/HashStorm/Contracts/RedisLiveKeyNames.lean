import HashStorm.Contracts.ShareEvent
import Mathlib

/-!
# Names of the live keys

`RedisLiveKeyNames` joins segments by colons. The names of pools, miners and
workers are encoded before: blanks around them are cut off, and a character that
is no letter, digit, hyphen, underscore or dot becomes an underscore. No encoded
name has a colon or a character that is special in a glob, so a key is known up
to the encoding of its names, and so are the keys a glob matches.
-/

namespace HashStorm.Contracts

/-- `char.IsLetterOrDigit`; `unicode` classifies the characters beyond ASCII. A character
that takes two code units is neither. -/
def isLetterOrDigit (unicode : Char → Bool) (c : Char) : Bool :=
  if c.toNat < 128 then c.isAlphanum else c.toNat < 0x10000 && unicode c

/-- What is appended for a character; one of two code units is replaced twice. -/
def encodeChar (unicode : Char → Bool) (c : Char) : List Char :=
  if isLetterOrDigit unicode c ∨ c = '-' ∨ c = '_' ∨ c = '.' then [c]
  else if c.toNat < 0x10000 then ['_']
  else ['_', '_']

/-- `string.Trim`. -/
def trim (value : String) : List Char :=
  ((value.toList.dropWhile isWhiteSpace).reverse.dropWhile isWhiteSpace).reverse

/-- `Encode`. -/
def encode (unicode : Char → Bool) (value : Option String) : String :=
  if isNullOrWhiteSpace value then "_"
  else
    let encoded := (trim (value.getD "")).flatMap (encodeChar unicode)
    if encoded = [] then "_" else String.ofList encoded

/-- The keys of the live state, with the pool, the miner, the worker and the bucket they
are for. -/
inductive LiveKey where
  | status (poolId : Option String)
  | summary (poolId : Option String)
  | topMiners (poolId : Option String)
  | workersLastSeen (poolId : Option String)
  | minerWorkers (poolId miner : Option String)
  | activeMinerWorkers (poolId miner : Option String)
  | minerSummary (poolId miner : Option String)
  | workerSummary (poolId miner worker : Option String)
  | poolBucket (poolId : Option String) (timestamp : Int)
  | bucketMiners (poolId : Option String) (timestamp : Int)
  | bucketWorkers (poolId : Option String) (timestamp : Int)
  | seenEvents (poolId : Option String) (timestamp : Int)
  | minerBucket (poolId miner : Option String) (timestamp : Int)
  | workerBucket (poolId miner worker : Option String) (timestamp : Int)
  deriving DecidableEq, Repr

namespace LiveKey

/-- The pool a key is for. -/
def poolId : LiveKey → Option String
  | status p | summary p | topMiners p | workersLastSeen p | minerWorkers p _
  | activeMinerWorkers p _ | minerSummary p _ | workerSummary p _ _ | poolBucket p _
  | bucketMiners p _ | bucketWorkers p _ | seenEvents p _ | minerBucket p _ _
  | workerBucket p _ _ _ => p

variable (unicode : Char → Bool)

/-- The segments of a key behind that of its pool. -/
def tail : LiveKey → List String
  | status _ => ["status"]
  | summary _ => ["summary"]
  | topMiners _ => ["miners", "top"]
  | workersLastSeen _ => ["workers", "lastseen"]
  | minerWorkers _ miner => ["miner", encode unicode miner, "workers"]
  | activeMinerWorkers _ miner => ["miner", encode unicode miner, "workers", "active"]
  | minerSummary _ miner => ["miner", encode unicode miner, "summary"]
  | workerSummary _ miner worker =>
    ["worker", encode unicode miner, encode unicode worker, "summary"]
  | poolBucket _ timestamp => ["bucket", toString timestamp, "summary"]
  | bucketMiners _ timestamp => ["bucket", toString timestamp, "miners"]
  | bucketWorkers _ timestamp => ["bucket", toString timestamp, "workers"]
  | seenEvents _ timestamp => ["seen", toString timestamp]
  | minerBucket _ miner timestamp =>
    ["miner", encode unicode miner, "bucket", toString timestamp]
  | workerBucket _ miner worker timestamp =>
    ["worker", encode unicode miner, encode unicode worker, "bucket", toString timestamp]

/-- The segments of a key. -/
def segments (k : LiveKey) : List String :=
  "hashstorm" :: "live" :: encode unicode k.poolId :: k.tail unicode

/-- The name of a key in Redis. -/
def name (k : LiveKey) : String := ":".intercalate (k.segments unicode)

/-- The same key for encoded names. -/
def encoded : LiveKey → LiveKey
  | status p => status (encode unicode p)
  | summary p => summary (encode unicode p)
  | topMiners p => topMiners (encode unicode p)
  | workersLastSeen p => workersLastSeen (encode unicode p)
  | minerWorkers p m => minerWorkers (encode unicode p) (encode unicode m)
  | activeMinerWorkers p m => activeMinerWorkers (encode unicode p) (encode unicode m)
  | minerSummary p m => minerSummary (encode unicode p) (encode unicode m)
  | workerSummary p m w =>
    workerSummary (encode unicode p) (encode unicode m) (encode unicode w)
  | poolBucket p t => poolBucket (encode unicode p) t
  | bucketMiners p t => bucketMiners (encode unicode p) t
  | bucketWorkers p t => bucketWorkers (encode unicode p) t
  | seenEvents p t => seenEvents (encode unicode p) t
  | minerBucket p m t => minerBucket (encode unicode p) (encode unicode m) t
  | workerBucket p m w t =>
    workerBucket (encode unicode p) (encode unicode m) (encode unicode w) t

end LiveKey

/-- `PoolPrefix`. -/
def poolPrefix (unicode : Char → Bool) (poolId : Option String) : String :=
  "hashstorm:live:" ++ encode unicode poolId ++ ":"

/-- The pattern of `ClearPoolStateAsync`. -/
def clearPoolPattern (unicode : Char → Bool) (poolId : Option String) : String :=
  poolPrefix unicode poolId ++ "*"

/-- The pattern of `RebuildPoolWindowAsync`. -/
def activeWorkersPattern (unicode : Char → Bool) (poolId : Option String) : String :=
  poolPrefix unicode poolId ++ "miner:*:workers:active"

/-- Whether Redis takes a key for a match of a pattern that has no special character but
the asterisk. -/
def globMatches : List Char → List Char → Bool
  | [], key => key.isEmpty
  | c :: pattern, key =>
    if c = '*' then key.tails.any (globMatches pattern)
    else
      match key with
      | [] => false
      | d :: key => c = d && globMatches pattern key

section Encode

variable {unicode : Char → Bool}

/-- The characters that a glob does not take for themselves. -/
def globSpecial : List Char := ['*', '?', '[', ']', '\\', '^']

/-- An encoded name has only letters, digits, hyphens, underscores and dots. -/
theorem mem_encode {value : Option String} {c : Char} (h : c ∈ (encode unicode value).toList) :
    isLetterOrDigit unicode c = true ∨ c = '-' ∨ c = '_' ∨ c = '.' := by
  have hunderscore : c ∈ ['_'] → isLetterOrDigit unicode c = true ∨ c = '-' ∨ c = '_' ∨ c = '.' :=
    fun h => .inr (.inr (.inl (List.mem_singleton.mp h)))
  unfold encode at h
  split at h
  · exact hunderscore h
  · simp only at h
    split at h
    · exact hunderscore h
    · rw [String.toList_ofList] at h
      obtain ⟨d, -, hd⟩ := List.mem_flatMap.mp h
      unfold encodeChar at hd
      split at hd
      · rename_i hkept
        rwa [List.mem_singleton.mp hd]
      · split at hd
        · exact hunderscore hd
        · exact hunderscore (by simpa using hd)

/-- The colon and the special characters of a glob do not occur in an encoded name. -/
theorem not_mem_encode {value : Option String} {c : Char} (hc : c ∈ ':' :: globSpecial) :
    c ∉ (encode unicode value).toList := by
  have hno : ∀ c ∈ ':' :: globSpecial, ¬(c.isAlphanum = true ∨ c = '-' ∨ c = '_' ∨ c = '.') ∧
      c.toNat < 128 := by
    simp [globSpecial, Char.isAlphanum, Char.isAlpha, Char.isUpper, Char.isLower, Char.isDigit]
  intro h
  obtain ⟨hnot, hascii⟩ := hno c hc
  have hmem := mem_encode h
  rw [isLetterOrDigit, if_pos hascii] at hmem
  exact hnot hmem

end Encode

section Keys

variable {unicode : Char → Bool}

/-- Texts without a colon are read back from their join. -/
theorem intercalate_inj {xs ys : List String} (hxs : ∀ s ∈ xs, ':' ∉ s.toList)
    (hys : ∀ s ∈ ys, ':' ∉ s.toList) (hx : xs ≠ []) (hy : ys ≠ [])
    (h : ":".intercalate xs = ":".intercalate ys) : xs = ys := by
  have hsplit := congrArg (fun s : String => (s.split ':').toList.map fun x => x.copy) h
  have hsx := String.toList_split_intercalate hxs
  have hsy := String.toList_split_intercalate hys
  rw [if_neg hx] at hsx
  rw [if_neg hy] at hsy
  exact hsx.symm.trans (hsplit.trans hsy)

/-- The decimal digits of a number and its sign are no colons. -/
theorem colon_not_mem_toString (t : Int) : ':' ∉ (toString t).toList := by
  have hdigits : ∀ n : Nat, ':' ∉ n.repr.toList := by
    intro n h
    rw [Nat.toList_repr] at h
    exact absurd (Nat.isDigit_of_mem_toDigits (by decide) (by decide) h) (by decide)
  rw [Int.toString_eq_repr, Int.repr_eq_if]
  split
  · exact hdigits _
  · rw [String.toList_append, List.mem_append]
    exact not_or.mpr ⟨by decide, hdigits _⟩

theorem LiveKey.colon_not_mem (k : LiveKey) : ∀ s ∈ k.segments unicode, ':' ∉ s.toList := by
  have hencode : ∀ value, ':' ∉ (encode unicode value).toList :=
    fun value => not_mem_encode List.mem_cons_self
  have hfixed : ∀ s ∈ ["hashstorm", "live", "status", "summary", "miners", "top", "workers",
      "lastseen", "miner", "active", "worker", "bucket", "seen"], ':' ∉ s.toList := by
    decide +kernel
  simp only [List.forall_mem_cons] at hfixed
  cases k <;>
    simp only [LiveKey.segments, LiveKey.tail, List.forall_mem_cons, hfixed, hencode,
      colon_not_mem_toString, not_false_eq_true, true_and, List.not_mem_nil, false_imp_iff,
      implies_true]

/-- The segments of a key tell its kind, its bucket and its encoded names. -/
theorem LiveKey.encoded_eq_of_segments_eq {k k' : LiveKey}
    (h : k.segments unicode = k'.segments unicode) : k.encoded unicode = k'.encoded unicode := by
  have htime : ∀ t t' : Int, toString t = toString t' → t = t' :=
    fun t t' h => Int.repr_injective h
  cases k <;> cases k' <;>
    simp_all [LiveKey.segments, LiveKey.tail, LiveKey.encoded, LiveKey.poolId]

theorem LiveKey.name_eq_iff {k k' : LiveKey} :
    k.name unicode = k'.name unicode ↔ k.encoded unicode = k'.encoded unicode := by
  constructor
  · intro h
    exact encoded_eq_of_segments_eq (intercalate_inj k.colon_not_mem k'.colon_not_mem
      (List.cons_ne_nil _ _) (List.cons_ne_nil _ _) h)
  · intro h
    have hsegments : k.segments unicode = k'.segments unicode := by
      cases k <;> cases k' <;>
        simp_all [LiveKey.segments, LiveKey.tail, LiveKey.encoded, LiveKey.poolId]
    rw [LiveKey.name, LiveKey.name, hsegments]

theorem poolPrefix_eq (unicode : Char → Bool) (poolId : Option String) :
    poolPrefix unicode poolId = "hashstorm:live:" ++ encode unicode poolId ++ ":" :=
  rfl

/-- The name of a key starts with that of its pool. -/
theorem LiveKey.exists_name_eq (unicode : Char → Bool) (k : LiveKey) :
    ∃ rest, k.name unicode = poolPrefix unicode k.poolId ++ rest := by
  obtain ⟨s, segments, htail⟩ : ∃ s segments, k.tail unicode = s :: segments := by
    cases k <;> exact ⟨_, _, rfl⟩
  refine ⟨":".intercalate (s :: segments), ?_⟩
  rw [LiveKey.name, LiveKey.segments, htail, String.intercalate_cons_cons,
    String.intercalate_cons_cons, String.intercalate_cons_cons, poolPrefix_eq]
  simp only [← String.append_assoc]
  rfl

end Keys

section Globs

variable {unicode : Char → Bool}

/-- What stands in front of the first asterisk is matched by itself. -/
theorem globMatches_literal {literal pattern key : List Char} (hliteral : '*' ∉ literal)
    (h : globMatches (literal ++ pattern) key = true) : ∃ rest, key = literal ++ rest := by
  induction literal generalizing key with
  | nil => exact ⟨key, rfl⟩
  | cons c literal ih =>
    obtain ⟨hc, hliteral⟩ := not_or.mp (List.mem_cons.not.mp hliteral)
    simp only [List.cons_append, globMatches, if_neg (Ne.symm hc)] at h
    cases key with
    | nil => cases h
    | cons d key =>
      simp only [Bool.and_eq_true, decide_eq_true_eq] at h
      obtain ⟨rest, hrest⟩ := ih hliteral h.2
      exact ⟨rest, by rw [h.1, hrest, List.cons_append]⟩

/-- What stands in front of the first separator and behind it is known. -/
theorem append_cons_inj {c : Char} {xs ys xrest yrest : List Char} (hxs : c ∉ xs) (hys : c ∉ ys)
    (h : xs ++ c :: xrest = ys ++ c :: yrest) : xs = ys ∧ xrest = yrest := by
  induction xs generalizing ys with
  | nil =>
    cases ys with
    | nil => exact ⟨rfl, (List.cons.inj h).2⟩
    | cons d ys =>
      simp only [List.nil_append, List.cons_append, List.cons.injEq] at h
      exact absurd (h.1 ▸ List.mem_cons_self) hys
  | cons d xs ih =>
    cases ys with
    | nil =>
      simp only [List.nil_append, List.cons_append, List.cons.injEq] at h
      exact absurd (h.1 ▸ List.mem_cons_self) hxs
    | cons d' ys =>
      simp only [List.cons_append, List.cons.injEq] at h
      obtain ⟨hrest, htail⟩ := ih (fun hm => hxs (List.mem_cons_of_mem _ hm))
        (fun hm => hys (List.mem_cons_of_mem _ hm)) h.2
      exact ⟨by rw [h.1, hrest], htail⟩

/-- A pattern that starts with the name of a pool matches keys of this pool only. -/
theorem encode_eq_of_globMatches {poolId : Option String} {pattern : String} {k : LiveKey}
    (h : globMatches (poolPrefix unicode poolId ++ pattern).toList (k.name unicode).toList =
      true) : encode unicode k.poolId = encode unicode poolId := by
  have hcolon : ∀ value, ':' ∉ (encode unicode value).toList :=
    fun value => not_mem_encode List.mem_cons_self
  have hstar : '*' ∉ (poolPrefix unicode poolId).toList := by
    have hencode : '*' ∉ (encode unicode poolId).toList := not_mem_encode (by decide)
    simp only [poolPrefix_eq, String.toList_append, List.mem_append, not_or]
    exact ⟨⟨by decide, hencode⟩, by decide⟩
  obtain ⟨tail, htail⟩ := k.exists_name_eq unicode
  rw [String.toList_append] at h
  obtain ⟨rest, hrest⟩ := globMatches_literal hstar h
  rw [htail] at hrest
  simp only [poolPrefix_eq, String.toList_append, List.append_assoc] at hrest
  have hcancel := List.append_cancel_left hrest
  exact String.toList_inj.mp (append_cons_inj (hcolon _) (hcolon _) hcancel).1

/-- **A live key is known up to the encoding of its names, and so is the pool of the keys a
pattern matches.** -/
theorem live_keys_separate (unicode : Char → Bool) :
    (∀ k k' : LiveKey, k.name unicode = k'.name unicode ↔
        k.encoded unicode = k'.encoded unicode) ∧
      ∀ poolId, ∀ pattern ∈ [clearPoolPattern unicode poolId, activeWorkersPattern unicode poolId],
        (∀ c ∈ pattern.toList, c ∈ globSpecial → c = '*') ∧
        ∀ k : LiveKey, globMatches pattern.toList (k.name unicode).toList = true →
          encode unicode k.poolId = encode unicode poolId := by
  refine ⟨fun k k' => LiveKey.name_eq_iff, fun poolId pattern hpattern => ?_⟩
  have hplain : ∀ rest : String, (∀ c ∈ rest.toList, c ∈ globSpecial → c = '*') →
      ∀ c ∈ (poolPrefix unicode poolId ++ rest).toList, c ∈ globSpecial → c = '*' := by
    intro rest hrest c hc hspecial
    simp only [poolPrefix_eq, String.toList_append, List.mem_append] at hc
    have hfixed : ∀ c ∈ "hashstorm:live:".toList, c ∉ globSpecial := by simp [globSpecial]
    rcases hc with ((hc | hc) | hc) | hc
    · exact absurd hspecial (hfixed c hc)
    · exact absurd hc (not_mem_encode (List.mem_cons_of_mem _ hspecial))
    · exact absurd hspecial (List.mem_singleton.mp hc ▸ by decide)
    · exact hrest c hc hspecial
  simp only [List.mem_cons, List.not_mem_nil, or_false] at hpattern
  rcases hpattern with rfl | rfl
  · exact ⟨hplain _ (by simp [globSpecial]), fun k => encode_eq_of_globMatches⟩
  · exact ⟨hplain _ (by simp [globSpecial]), fun k => encode_eq_of_globMatches⟩

/-- Two miners with the same key. -/
theorem live_keys_merge_miners :
    let unicode : Char → Bool := fun _ => false
    (LiveKey.minerBucket (some "pool") (some "a b") 0).name unicode =
        (LiveKey.minerBucket (some "pool") (some "a_b") 0).name unicode ∧
      LiveKey.minerBucket (some "pool") (some "a b") 0 ≠
        LiveKey.minerBucket (some "pool") (some "a_b") 0 := by
  refine ⟨LiveKey.name_eq_iff.mpr ?_, by decide⟩
  decide

end Globs

end HashStorm.Contracts
