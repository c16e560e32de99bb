import Quantica.HashTable
import Quantica.QuidMemory

namespace Quantica

open FaultProgram JsonText

/-! `webapi.c`: the routes, and how `handle_request` finds the one for a path. -/

def hashtableDataSize : Nat := 10

inductive ApiHandler where
  | apiRoot | apiSync | apiVacuum | apiInstance | apiShutdown | apiVariables | apiHelp | apiPageAll | apiSha1
  | apiMd5 | apiSha256 | apiSha512 | apiGenQuid | apiGenRand | apiBase64Enc | apiBase64Dec | apiHmacSha256
  | apiHmacSha512 | apiSqlQuery | apiDbPut | apiDbGet | apiDbCount | apiDbUpdate | apiDbDuplicate | apiDbDelete
  | apiDbPurge | apiDbGetMeta | apiDbDecode | apiDbGetType | apiDbGetSchema | apiDbGetHistory | apiDbGetVersion
  | apiDbItemAdd | apiDbItemRemove | apiAliasGet | apiAliasAll | apiAliasName | apiIndexGroup | apiIndexRebuild
  | apiIndexAll | apiAuthToken
  deriving DecidableEq

/-- `struct webroute` without the description. -/
structure Webroute where
  uri : List UInt8
  apiHandler : ApiHandler
  requireQuid : Bool
  deriving DecidableEq

def route : List Webroute :=
  [⟨literalBytes "/", .apiRoot, false⟩, ⟨literalBytes "/sync", .apiSync, false⟩,
    ⟨literalBytes "/vacuum", .apiVacuum, false⟩, ⟨literalBytes "/instance", .apiInstance, false⟩,
    ⟨literalBytes "/shutdown", .apiShutdown, false⟩, ⟨literalBytes "/vars", .apiVariables, false⟩,
    ⟨literalBytes "/help", .apiHelp, false⟩, ⟨literalBytes "/pager", .apiPageAll, false⟩,
    ⟨literalBytes "/sha1", .apiSha1, false⟩, ⟨literalBytes "/md5", .apiMd5, false⟩,
    ⟨literalBytes "/sha256", .apiSha256, false⟩, ⟨literalBytes "/sha512", .apiSha512, false⟩,
    ⟨literalBytes "/quid", .apiGenQuid, false⟩, ⟨literalBytes "/random", .apiGenRand, false⟩,
    ⟨literalBytes "/base64/enc", .apiBase64Enc, false⟩, ⟨literalBytes "/base64/dec", .apiBase64Dec, false⟩,
    ⟨literalBytes "/hmac/sha256", .apiHmacSha256, false⟩, ⟨literalBytes "/hmac/sha512", .apiHmacSha512, false⟩,
    ⟨literalBytes "/sql", .apiSqlQuery, false⟩, ⟨literalBytes "/put", .apiDbPut, false⟩,
    ⟨literalBytes "/store", .apiDbPut, false⟩, ⟨literalBytes "/insert", .apiDbPut, false⟩,
    ⟨literalBytes "/get", .apiDbGet, true⟩, ⟨literalBytes "/retrieve", .apiDbGet, true⟩,
    ⟨literalBytes "/count", .apiDbCount, true⟩, ⟨literalBytes "/update", .apiDbUpdate, true⟩,
    ⟨literalBytes "/duplicate", .apiDbDuplicate, true⟩, ⟨literalBytes "/copy", .apiDbDuplicate, true⟩,
    ⟨literalBytes "/delete", .apiDbDelete, true⟩, ⟨literalBytes "/remove", .apiDbDelete, true⟩,
    ⟨literalBytes "/purge", .apiDbPurge, true⟩, ⟨literalBytes "/meta", .apiDbGetMeta, true⟩,
    ⟨literalBytes "/decode", .apiDbDecode, true⟩, ⟨literalBytes "/type", .apiDbGetType, true⟩,
    ⟨literalBytes "/schema", .apiDbGetSchema, true⟩, ⟨literalBytes "/history", .apiDbGetHistory, true⟩,
    ⟨literalBytes "/history/*", .apiDbGetVersion, true⟩, ⟨literalBytes "/attach", .apiDbItemAdd, true⟩,
    ⟨literalBytes "/detach", .apiDbItemRemove, true⟩, ⟨literalBytes "/alias/*", .apiAliasGet, false⟩,
    ⟨literalBytes "/alias", .apiAliasAll, false⟩, ⟨literalBytes "/alias", .apiAliasName, true⟩,
    ⟨literalBytes "/index", .apiIndexGroup, true⟩, ⟨literalBytes "/rebuild", .apiIndexRebuild, true⟩,
    ⟨literalBytes "/index", .apiIndexAll, false⟩, ⟨literalBytes "/auth/token", .apiAuthToken, false⟩]

/-- What the handler is called with, as far as the path decides it. -/
structure HttpRequest where
  data : HashTable
  uri : List UInt8

def fromHex (ch : UInt8) : UInt8 := if 48 ≤ ch ∧ ch ≤ 57 then ch - 48 else tolower ch - 97 + 10

/-- The loop that decodes the percent signs. One with less than two characters behind it is dropped. -/
def decodeFilename : List UInt8 → List UInt8
  | c :: a :: b :: s =>
    if c = 37 then (fromHex a <<< 4 ||| fromHex b) :: decodeFilename s
    else (if c = 43 then 32 else c) :: decodeFilename (a :: b :: s)
  | c :: s => if c = 37 then decodeFilename s else (if c = 43 then 32 else c) :: decodeFilename s
  | [] => []

/-- The string that begins with these bytes. -/
def cstringOf (s : List UInt8) : CString :=
  ⟨s.takeWhile (· ≠ 0), fun h => by simpa using List.mem_takeWhile_imp h⟩

/-- `_filename` before its last slash is taken off. -/
def decodedFilename (filename : CString) : CString :=
  if 37 ∈ filename.val then cstringOf (decodeFilename filename.val) else filename

/-- `_filename`. -/
def requestFilename (filename : CString) : CString :=
  let s := (decodedFilename filename).val
  if 1 < s.length ∧ s.getLast? = some 47 then cstringOf s.dropLast else decodedFilename filename

/-- The quid that is cut out of the path, with `_pfilename`: 38 characters before a slash, or else 36. -/
def cutQuid (filename : List UInt8) : Option (List UInt8 × List UInt8) :=
  if filename.getD (quidLength + 1) 0 = 47 then
    some ((filename.drop 1).take quidLength, filename.drop (quidLength + 1))
  else if filename.getD (quidLength - 1) 0 = 47 then
    some ((filename.drop 1).take (quidLength - 2), filename.drop (quidLength - 1))
  else none

/-- The comparison of a route's address with a path, and `req.uri` where they fit. -/
def matchUri (uri path : List UInt8) : Option (List UInt8) :=
  match uri.findIdx? (· = 42) with
  | some posc => if (uri.take posc).isPrefixOf path then some (path.drop posc) else none
  | none => if uri = path then some path else none

def quidKey : CString := ⟨literalBytes "quid", by decide⟩

/-- The body of the loop: the request with which the handler of the route is called. -/
def tryRoute (fuel fsz : Nat) (filename : CString) (data : HashTable) (r : Webroute) :
    Except Fault (Option HttpRequest) :=
  if r.requireQuid then
    if fsz < quidLength + 1 then .ok none
    else match cutQuid filename.val with
      | none => .ok none
      | some (squid, pfilename) =>
        match matchUri r.uri pfilename with
        | none => .ok none
        | some uri => do
          let data ← hashtablePut fuel data quidKey (cstringOf squid)
          return some ⟨data, uri⟩
  else .ok ((matchUri r.uri filename.val).map fun uri => ⟨data, uri⟩)

/-- The first of the routes that fits. -/
def routeRequest (fuel fsz : Nat) (filename : CString) (data : HashTable) :
    List Webroute → Except Fault (Option (Webroute × HttpRequest))
  | [] => .ok none
  | r :: rs => do
    match ← tryRoute fuel fsz filename data r with
    | some req => return some (r, req)
    | none => routeRequest fuel fsz filename data rs

/-- The route whose handler `handle_request` calls for the path of a request and the variables of its body, or nothing
where there is none. The loop begins with the last route. -/
def handleRequest (fuel : Nat) (filename : CString) (postdata : List (CString × CString)) :
    Except Fault (Option (Webroute × HttpRequest)) := do
  if 39 ∈ filename.val ∨ 32 ∈ filename.val then
    return none
  let data ← postdata.foldlM (fun d v => hashtablePut fuel d v.1 v.2) (allocHashtable hashtableDataSize)
  routeRequest fuel (decodedFilename filename).val.length (requestFilename filename) data route.reverse

/-! The condition. -/

/-- The path ends in the text of a quid and in `tail`, as `handle_request` takes it apart. -/
def CutAs (filename squid tail : List UInt8) : Prop :=
  ∃ c rest, tail = 47 :: rest ∧ filename = c :: (squid ++ tail) ∧
    (squid.length = quidLength ∨ squid.length = quidLength - 2 ∧ filename[quidLength + 1]? ≠ some 47)

/-- A route that requires a quid is called for the tail of the path. The path of an alias, which begins with "/alias/",
goes to the alias unless its tail is that of one of the last routes. -/
def QuidTail (filename tail : List UInt8) : Prop :=
  (∃ r ∈ route, r.requireQuid = true ∧ (matchUri r.uri tail).isSome = true) ∧
    (literalBytes "/alias/" <+: filename →
      tail = literalBytes "/alias" ∨ tail = literalBytes "/index" ∨ tail = literalBytes "/rebuild")

/-- `sscanf` assigns every field of the key. -/
def AssignsKey (s : List UInt8) : Prop := (strtoquidFields s).length = (quidFormat []).length

/-- The route fits the path. -/
def fitsRoute (filename : List UInt8) (r : Webroute) : Bool :=
  if r.requireQuid then
    match cutQuid filename with
    | none => false
    | some (_, tail) => (matchUri r.uri tail).isSome
  else (matchUri r.uri filename).isSome

variable {filename squid tail uri path : List UInt8} {r : Webroute}

/-- A path with a slash behind its first character and `n` more. -/
theorem slash_at {n : Nat} (h : filename.getD (n + 1) 0 = 47) : ∃ c rest, filename.drop (n + 1) = 47 :: rest ∧
    filename = c :: ((filename.drop 1).take n ++ filename.drop (n + 1)) ∧ ((filename.drop 1).take n).length = n := by
  have hlt : n + 1 < filename.length := by
    by_contra hge
    rw [List.getD_eq_default _ _ (by omega)] at h
    cases h
  cases filename with
  | nil => cases hlt
  | cons c s =>
    rw [List.length_cons] at hlt
    rw [List.getD_cons_succ, List.getD_eq_getElem _ _ (by omega)] at h
    refine ⟨c, s.drop (n + 1), ?_, ?_, ?_⟩
    · rw [List.drop_succ_cons, List.drop_eq_getElem_cons (by omega), h]
    · rw [List.drop_succ_cons, List.drop_zero, List.drop_succ_cons, List.take_append_drop]
    · rw [List.drop_succ_cons, List.drop_zero, List.length_take]
      omega

theorem getD_slash {n : Nat} {c : UInt8} {rest : List UInt8} (hf : filename = c :: (squid ++ 47 :: rest))
    (hn : squid.length = n) : filename.getD (n + 1) 0 = 47 ∧ (filename.drop 1).take n = squid ∧
      filename.drop (n + 1) = 47 :: rest := by
  subst hf hn
  refine ⟨?_, ?_, ?_⟩
  · rw [List.getD_cons_succ, List.getD_append_right _ _ _ _ (le_refl _), Nat.sub_self]
    rfl
  · rw [List.drop_succ_cons, List.drop_zero, List.take_left]
  · rw [List.drop_succ_cons, List.drop_left]

theorem cutQuid_eq_some_iff : cutQuid filename = some (squid, tail) ↔ CutAs filename squid tail := by
  rw [cutQuid]
  constructor
  · intro h
    split at h
    · rename_i hslash
      obtain ⟨c, rest, htail, hf, hlen⟩ := slash_at hslash
      cases h
      exact ⟨c, rest, htail, hf, .inl hlen⟩
    · rename_i hnone
      split at h
      · rename_i hslash
        obtain ⟨c, rest, htail, hf, hlen⟩ := slash_at (n := 36) hslash
        cases h
        refine ⟨c, rest, htail, hf, .inr ⟨hlen, fun hs => hnone ?_⟩⟩
        rw [List.getD_eq_getElem?_getD, hs]
        rfl
      · cases h
  · rintro ⟨c, rest, rfl, hf, hlen | ⟨hlen, hne⟩⟩
    · obtain ⟨hslash, htake, hdrop⟩ := getD_slash hf hlen
      rw [if_pos hslash, htake, hdrop]
    · obtain ⟨hslash, htake, hdrop⟩ := getD_slash hf hlen
      have hnone : ¬ filename.getD (quidLength + 1) 0 = 47 := by
        rw [List.getD_eq_getElem?_getD]
        intro h
        cases hget : filename[quidLength + 1]? with
        | none =>
          rw [hget] at h
          cases h
        | some c =>
          rw [hget, Option.getD_some] at h
          exact hne (h ▸ hget)
      have hslash' : filename.getD (quidLength - 1) 0 = 47 := hslash
      have hdrop' : filename.drop (quidLength - 1) = 47 :: rest := hdrop
      rw [if_neg hnone, if_pos hslash', htake, hdrop']

theorem matchUri_eq_some {q : List UInt8} (hm : matchUri uri path = some q) :
    (∃ posc, uri.findIdx? (· = 42) = some posc ∧ uri.take posc <+: path) ∨ uri.findIdx? (· = 42) = none ∧ uri = path := by
  rw [matchUri] at hm
  cases hfind : uri.findIdx? (· = 42) with
  | none =>
    rw [hfind] at hm
    dsimp only at hm
    split at hm
    · rename_i heq
      exact .inr ⟨rfl, heq⟩
    · cases hm
  | some posc =>
    rw [hfind] at hm
    dsimp only at hm
    split at hm
    · rename_i hpre
      exact .inl ⟨posc, rfl, List.isPrefixOf_iff_prefix.mp hpre⟩
    · cases hm

/-- Every route that requires a quid has an address of at least four characters. -/
theorem length_of_matchUri {q : List UInt8} (hr : r ∈ route) (hquid : r.requireQuid = true)
    (hm : matchUri r.uri path = some q) : 4 ≤ path.length := by
  have htable : ∀ r ∈ route, r.requireQuid = true →
      4 ≤ r.uri.length ∧ ∀ posc, r.uri.findIdx? (· = 42) = some posc → 4 ≤ (r.uri.take posc).length := by
    decide
  obtain ⟨hlen, hstar⟩ := htable r hr hquid
  obtain ⟨posc, hfind, hpre⟩ | ⟨-, rfl⟩ := matchUri_eq_some hm
  · exact (hstar posc hfind).trans hpre.length_le
  · exact hlen

/-- A path of more than 36 characters is that of no route but the one of an alias. -/
theorem matchUri_of_not_quid {q : List UInt8} (hr : r ∈ route) (hquid : r.requireQuid = false)
    (hlen : 36 < path.length) (hm : matchUri r.uri path = some q) :
    r = ⟨literalBytes "/alias/*", .apiAliasGet, false⟩ ∧ literalBytes "/alias/" <+: path := by
  have htable : ∀ r ∈ route, r.requireQuid = false → r.uri.length ≤ 36 ∧
      ∀ posc, r.uri.findIdx? (· = 42) = some posc → r = ⟨literalBytes "/alias/*", .apiAliasGet, false⟩ := by
    decide
  obtain ⟨hshort, hstar⟩ := htable r hr hquid
  obtain ⟨posc, hfind, hpre⟩ | ⟨-, rfl⟩ := matchUri_eq_some hm
  · obtain rfl := hstar posc hfind
    obtain rfl : 7 = posc := Option.some.inj hfind
    exact ⟨rfl, hpre⟩
  · omega

theorem CutAs.length_lt (h : CutAs filename squid tail) : 36 < filename.length := by
  obtain ⟨c, rest, rfl, rfl, hlen⟩ := h
  rw [List.length_cons, List.length_append, List.length_cons]
  rw [quidLength] at hlen
  omega

theorem fitsRoute_quid (hcut : CutAs filename squid tail) (hquid : r.requireQuid = true) :
    fitsRoute filename r = (matchUri r.uri tail).isSome := by
  rw [fitsRoute, if_pos hquid, cutQuid_eq_some_iff.mpr hcut]

theorem fitsRoute_other (hquid : r.requireQuid = false) : fitsRoute filename r = (matchUri r.uri filename).isSome := by
  rw [fitsRoute, if_neg (by rw [hquid]; decide)]

/-- The table from its end. -/
theorem route_reverse : route.reverse =
    (route.drop 40).reverse ++ ⟨literalBytes "/alias/*", .apiAliasGet, false⟩ :: (route.take 39).reverse := by
  decide

/-- For which tails a route that requires a quid is the first one that fits. -/
theorem find?_quid_iff (hcut : CutAs filename squid tail) :
    (∃ r, route.reverse.find? (fitsRoute filename) = some r ∧ r.requireQuid = true) ↔ QuidTail filename tail := by
  have hlater : ∀ r ∈ (route.drop 40).reverse, r ∈ route ∧ r ≠ ⟨literalBytes "/alias/*", .apiAliasGet, false⟩ ∧
      (r.requireQuid = true → r.uri.findIdx? (· = 42) = none ∧
        (r.uri = literalBytes "/alias" ∨ r.uri = literalBytes "/index" ∨ r.uri = literalBytes "/rebuild")) := by
    decide
  constructor
  · rintro ⟨r, hfind, hquid⟩
    have hfits := List.find?_some hfind
    have hr : r ∈ route := List.mem_reverse.mp (List.mem_of_find?_eq_some hfind)
    rw [fitsRoute_quid hcut hquid] at hfits
    refine ⟨⟨r, hr, hquid, hfits⟩, fun halias => ?_⟩
    have hstar : fitsRoute filename ⟨literalBytes "/alias/*", .apiAliasGet, false⟩ = true := by
      have hm : matchUri (literalBytes "/alias/*") filename = some (filename.drop 7) :=
        if_pos (List.isPrefixOf_iff_prefix.mpr halias)
      rw [fitsRoute_other rfl, hm]
      rfl
    rw [route_reverse, List.find?_append, List.find?_cons_of_pos hstar] at hfind
    cases hl : (route.drop 40).reverse.find? (fitsRoute filename) with
    | none =>
      rw [hl] at hfind
      obtain rfl := Option.some.inj hfind
      cases hquid
    | some r' =>
      rw [hl] at hfind
      obtain rfl := Option.some.inj hfind
      obtain ⟨-, -, htable⟩ := hlater r' (List.mem_of_find?_eq_some hl)
      obtain ⟨hnone, huri⟩ := htable hquid
      obtain ⟨q, hq⟩ := Option.isSome_iff_exists.mp hfits
      obtain ⟨posc, hfind, -⟩ | ⟨-, rfl⟩ := matchUri_eq_some hq
      · rw [hnone] at hfind
        cases hfind
      · exact huri
  · rintro ⟨⟨r₀, hr₀, hquid₀, hfits₀⟩, halias⟩
    have hsome : (route.reverse.find? (fitsRoute filename)).isSome = true := by
      rw [List.find?_isSome]
      exact ⟨r₀, List.mem_reverse.mpr hr₀, by rw [fitsRoute_quid hcut hquid₀, hfits₀]⟩
    obtain ⟨r, hfind⟩ := Option.isSome_iff_exists.mp hsome
    refine ⟨r, hfind, ?_⟩
    by_contra hquid
    have hquid := Bool.eq_false_iff.mpr hquid
    have hfits := List.find?_some hfind
    rw [fitsRoute_other hquid] at hfits
    obtain ⟨q, hq⟩ := Option.isSome_iff_exists.mp hfits
    obtain ⟨rfl, hprefix⟩ := matchUri_of_not_quid (List.mem_reverse.mp (List.mem_of_find?_eq_some hfind)) hquid
      hcut.length_lt hq
    -- One of the last routes fits before the one of an alias.
    have hone : ∃ r₁ ∈ (route.drop 40).reverse, r₁.requireQuid = true ∧ r₁.uri = tail ∧
        r₁.uri.findIdx? (· = 42) = none := by
      obtain rfl | rfl | rfl := halias hprefix
      · exact ⟨⟨literalBytes "/alias", .apiAliasName, true⟩, by decide⟩
      · exact ⟨⟨literalBytes "/index", .apiIndexGroup, true⟩, by decide⟩
      · exact ⟨⟨literalBytes "/rebuild", .apiIndexRebuild, true⟩, by decide⟩
    obtain ⟨r₁, hr₁, hquid₁, rfl, hnone⟩ := hone
    have hfits₁ : fitsRoute filename r₁ = true := by
      rw [fitsRoute_quid hcut hquid₁, matchUri, hnone]
      dsimp only
      rw [if_pos rfl]
      rfl
    obtain ⟨r₂, hl⟩ := Option.isSome_iff_exists.mp (List.find?_isSome.mpr ⟨r₁, hr₁, hfits₁⟩)
    rw [route_reverse, List.find?_append, hl] at hfind
    obtain rfl := Option.some.inj hfind
    exact (hlater _ (List.mem_of_find?_eq_some hl)).2.1 rfl

/-! The request. -/

theorem cstringOf_of_notMem {s : List UInt8} (h : (0 : UInt8) ∉ s) : (cstringOf s).val = s :=
  takeWhile_cstring ⟨s, h⟩

/-- The variables of the body make a table in order. -/
theorem postdata_sound (fuel : Nat) {d : HashTable} (h : d.Sound) (postdata : List (CString × CString)) :
    ∃ d', postdata.foldlM (fun d v => hashtablePut (fuel + 2) d v.1 v.2) d = .ok d' ∧ d'.Sound := by
  induction postdata generalizing d with
  | nil => exact ⟨d, rfl, h⟩
  | cons v postdata ih =>
    obtain ⟨d₁, hput, hd₁, -⟩ := d.hashtablePut_sound h fuel v.1 v.2
    obtain ⟨d', hd', hs⟩ := ih hd₁
    refine ⟨d', ?_, hs⟩
    rw [List.foldlM_cons, hput]
    exact hd'

section Routing

variable {filename : CString} {data : HashTable} {fsz : Nat}

theorem hashtablePut_get (hd : data.Sound) (fuel : Nat) (key value : CString) :
    ∃ d, hashtablePut (fuel + 2) data key value = .ok d ∧ hashtableGet d key = .ok (some value) := by
  obtain ⟨d, hput, hs, hlatest⟩ := data.hashtablePut_sound hd fuel key value
  refine ⟨d, hput, ?_⟩
  rw [HashTable.hashtableGet_sound hs, hlatest, HashCall.apply, Function.update_self]
  rfl

/-- A route that does not fit is passed over. -/
theorem tryRoute_misses (fuel : Nat) (h : fitsRoute filename.val r = false) :
    tryRoute fuel fsz filename data r = .ok none := by
  rw [tryRoute]
  rw [fitsRoute] at h
  split
  · rename_i hquid
    rw [if_pos hquid] at h
    split
    · rfl
    · cases hcut : cutQuid filename.val with
      | none => rfl
      | some c =>
        rw [hcut] at h
        rw [Option.isSome_eq_false_iff, Option.isNone_iff_eq_none] at h
        dsimp only
        rw [h]
  · rename_i hquid
    rw [if_neg hquid, Option.isSome_eq_false_iff, Option.isNone_iff_eq_none] at h
    rw [h]
    rfl

/-- The handler of a route that requires a quid finds the text cut out of the path. -/
theorem tryRoute_fits (fuel : Nat) (hd : data.Sound) (hfsz : filename.val.length ≤ fsz) (hr : r ∈ route)
    (h : fitsRoute filename.val r = true) : ∃ req, tryRoute (fuel + 2) fsz filename data r = .ok (some req) ∧
      (r.requireQuid = true → ∃ squid tail, CutAs filename.val squid tail ∧
        hashtableGet req.data quidKey = .ok (some (cstringOf squid))) := by
  rw [fitsRoute] at h
  rw [tryRoute]
  split
  · rename_i hquid
    rw [if_pos hquid] at h
    cases hcut : cutQuid filename.val with
    | none =>
      rw [hcut] at h
      cases h
    | some c =>
      obtain ⟨squid, tail⟩ := c
      rw [hcut] at h
      obtain ⟨uri, huri⟩ := Option.isSome_iff_exists.mp h
      have hcutas := cutQuid_eq_some_iff.mp hcut
      have hfew : ¬ fsz < quidLength + 1 := by
        have htail := length_of_matchUri hr hquid huri
        obtain ⟨c, rest, -, heq, hlen⟩ := hcutas
        rw [heq, List.length_cons, List.length_append] at hfsz
        rw [quidLength] at hlen ⊢
        omega
      obtain ⟨d, hput, hget⟩ := hashtablePut_get hd fuel quidKey (cstringOf squid)
      rw [if_neg hfew]
      dsimp only
      rw [huri]
      dsimp only
      rw [hput]
      exact ⟨⟨d, uri⟩, rfl, fun _ => ⟨squid, tail, hcutas, hget⟩⟩
  · rename_i hquid
    rw [if_neg hquid] at h
    obtain ⟨uri, huri⟩ := Option.isSome_iff_exists.mp h
    rw [huri]
    exact ⟨⟨data, uri⟩, rfl, fun hq => absurd hq hquid⟩

/-- The loop over the routes stops at the first one that fits. -/
theorem routeRequest_find (fuel : Nat) (hd : data.Sound) (hfsz : filename.val.length ≤ fsz) {rs : List Webroute}
    (hrs : ∀ r ∈ rs, r ∈ route) : match rs.find? (fitsRoute filename.val) with
      | none => routeRequest (fuel + 2) fsz filename data rs = .ok none
      | some r => ∃ req, routeRequest (fuel + 2) fsz filename data rs = .ok (some (r, req)) ∧
          (r.requireQuid = true → ∃ squid tail, CutAs filename.val squid tail ∧
            hashtableGet req.data quidKey = .ok (some (cstringOf squid))) := by
  induction rs with
  | nil => rfl
  | cons r rs ih =>
    cases hfit : fitsRoute filename.val r with
    | true =>
      obtain ⟨req, htry, hreq⟩ := tryRoute_fits fuel hd hfsz (hrs r List.mem_cons_self) hfit
      rw [List.find?_cons_of_pos hfit]
      refine ⟨req, ?_, hreq⟩
      rw [routeRequest, htry]
      rfl
    | false =>
      have hmiss : tryRoute (fuel + 2) fsz filename data r = .ok none := tryRoute_misses (fuel + 2) hfit
      have hrest : routeRequest (fuel + 2) fsz filename data (r :: rs) = routeRequest (fuel + 2) fsz filename data rs := by
        rw [routeRequest, hmiss]
        rfl
      rw [List.find?_cons_of_neg (by rw [hfit]; decide), hrest]
      exact ih fun r hr => hrs r (List.mem_cons_of_mem _ hr)

end Routing

theorem length_requestFilename (filename : CString) :
    (requestFilename filename).val.length ≤ (decodedFilename filename).val.length := by
  rw [requestFilename]
  split
  · refine (List.takeWhile_prefix _).length_le.trans ?_
    rw [List.length_dropLast]
    omega
  · exact le_refl _

/-- `handle_request` calls the handler of the first route that fits, from the end of the table. -/
theorem handleRequest_find (fuel : Nat) {filename : CString} (hchars : ¬ (39 ∈ filename.val ∨ 32 ∈ filename.val))
    (postdata : List (CString × CString)) :
    match route.reverse.find? (fitsRoute (requestFilename filename).val) with
      | none => handleRequest (fuel + 2) filename postdata = .ok none
      | some r => ∃ req, handleRequest (fuel + 2) filename postdata = .ok (some (r, req)) ∧
          (r.requireQuid = true → ∃ squid tail, CutAs (requestFilename filename).val squid tail ∧
            hashtableGet req.data quidKey = .ok (some (cstringOf squid))) := by
  have hsize : 0 < hashtableDataSize := by decide
  have hroutes : ∀ r ∈ route.reverse, r ∈ route := fun r hr => List.mem_reverse.mp hr
  obtain ⟨d, hpost, hd⟩ := postdata_sound fuel (HashTable.sound_alloc hsize) postdata
  have hroute := routeRequest_find fuel hd (length_requestFilename filename) hroutes
  have hrun : handleRequest (fuel + 2) filename postdata = routeRequest (fuel + 2)
      (decodedFilename filename).val.length (requestFilename filename) d route.reverse := by
    rw [handleRequest, if_neg hchars]
    simp only [hpost]
    rfl
  rw [hrun]
  exact hroute

theorem CutAs.unique {squid' tail' : List UInt8} (h : CutAs filename squid tail) (h' : CutAs filename squid' tail') :
    squid = squid' ∧ tail = tail' := by
  have hcut := (cutQuid_eq_some_iff.mpr h).symm.trans (cutQuid_eq_some_iff.mpr h')
  exact Prod.ext_iff.mp (Option.some.inj hcut)

theorem CutAs.cstring {filename : CString} (h : CutAs filename.val squid tail) : (cstringOf squid).val = squid := by
  obtain ⟨c, rest, -, heq, -⟩ := h
  refine cstringOf_of_notMem fun hz => filename.property ?_
  rw [heq]
  exact List.mem_cons_of_mem _ (List.mem_append_left _ hz)

/-- An accepted text assigns every field unless a brace stands in front of its last digit. -/
theorem assignsKey_iff {s : CString} (hs : strquidFormat s.val ≠ 0) :
    AssignsKey s.val ↔ ∀ c ∈ (behindBrace s.val).take 35, isBrace c = false := by
  obtain ⟨opening, n, hfields, -, hn⟩ := strtoquidFields_accepted hs
  have hlen : (strtoquidFields s.val).length = min n 11 := by
    rw [← List.length_map (f := Prod.fst), hfields, List.length_take]
    rfl
  rw [AssignsKey, hlen, ← hn 2 (by omega), show (quidFormat []).length = 11 from rfl]
  omega

/-- A slash, 38 times "x" and "/get". -/
def noQuidPath : CString := ⟨47 :: List.replicate 38 120 ++ literalBytes "/get", by decide⟩

end Quantica
