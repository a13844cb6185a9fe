import DgcRestApi.Ledger.Conformity
import DgcRestApi.LedgerSync.Delivery

/-!
# Addresses on both sides

The processor makes an address of a code and slices of digests, and ledger sync takes the kind
of the object and the number of the page from fixed places of it. They agree on every address
of 70 characters, which those of pages are while a page number has four digits; and the
numbers of the pages that are written stay in that range.
-/

namespace DgcRestApi.LedgerSync
open Addressing Keyed Fallible

section Keys

variable {sha : Sha512} {key key' : Key} {r n : String} {k : Nat}

/-- Objects of different kinds are at different addresses, whatever the digest does. -/
theorem keyAddress_ne (h : Numbered key) (h' : Numbered key') (hne : keyName key ≠ keyName key') :
    keyAddress sha key ≠ keyAddress sha key' := by
  intro hA
  have hname := @getProtoName_keyAddress sha key h
  rw [hA,getProtoName_keyAddress h'] at hname
  exact hne (Except.ok.inj hname).symm

end Keys

section Pages

variable {env : Env} {s s' t : State} {r n signer : String} {ts k : Nat} {us : List PropertyValue}
variable {u : PropertyValue}

/-- The pages that a transaction writes in a state: the first page of a new property, and for
each update in turn the current page of its property and the page that follows. -/
inductive PageWrite (env : Env) (s : State) : String → String → Nat → Prop
  | created (r n : String) : PageWrite env s r n 1
  | current {r n signer : String} {ts : Nat} {us : List PropertyValue} {t : State} {q : Property}
      (ht : us.foldlM (updateProperty env r signer ts) s = .ok t)
      (hq : getProperty env t r n = .ok (some q)) : PageWrite env s r n q.currentPage
  | next {r n signer : String} {ts k : Nat} {us : List PropertyValue} {t : State} {q : Property}
      (ht : us.foldlM (updateProperty env r signer ts) s = .ok t)
      (hq : getProperty env t r n = .ok (some q))
      (hnext : nextPageNumber q.currentPage = .ok k) : PageWrite env s r n k

/-- One update writes at the address of its property and at those of the two pages. -/
theorem updateProperty_elsewhere (h : updateProperty env r signer ts s u = .ok s') :
    ∃ q, getProperty env s r u.name = .ok (some q) ∧ ∀ A,
      A ≠ makePropertyAddress env.sha r u.name 0 →
      A ≠ makePropertyAddress env.sha r u.name q.currentPage →
      (∀ k, nextPageNumber q.currentPage = .ok k →
        A ≠ makePropertyAddress env.sha r u.name k) → s' A = s A := by
  obtain ⟨q,hq,h⟩ := bind_eq_ok.mp h
  obtain ⟨_,_,h⟩ := bind_eq_ok.mp h
  obtain ⟨_,_,h⟩ := bind_eq_ok.mp h
  obtain ⟨_,_,h⟩ := bind_eq_ok.mp h
  obtain ⟨page,_,h⟩ := bind_eq_ok.mp h
  obtain ⟨v,_,h⟩ := bind_eq_ok.mp h
  obtain ⟨t,ht,h⟩ := bind_eq_ok.mp h
  refine ⟨q,expect_eq_ok.mp hq,fun A hproperty hcurrent hnext => ?_⟩
  have htA : t A = s A := setEntry_elsewhere ht hcurrent
  by_cases hfull : (pushReportedValue page v).reportedValues.length ≥ PROPERTY_PAGE_MAX_LENGTH
  · rw [if_pos hfull] at h
    obtain ⟨k,hk,h⟩ := bind_eq_ok.mp h
    obtain ⟨_,_,h⟩ := bind_eq_ok.mp h
    obtain ⟨t₁,ht₁,h⟩ := bind_eq_ok.mp h
    have ht₁A : t₁ A = t A := setEntry_elsewhere ht₁ (hnext k hk)
    have hs'A : s' A = t₁ A := setEntry_elsewhere h hproperty
    exact hs'A.trans (ht₁A.trans htA)
  · rw [if_neg hfull] at h
    exact Except.ok.inj h ▸ htA

/-- What updates change is a property or one of the pages they may write. -/
theorem updates_written (h : us.foldlM (updateProperty env r signer ts) s = .ok t) {A : Address}
    (hA : t A ≠ s A) : ∃ n, A = makePropertyAddress env.sha r n 0 ∨
      ∃ k, PageWrite env s r n k ∧ A = makePropertyAddress env.sha r n k := by
  induction us using List.reverseRecOn generalizing t with
  | nil => exact absurd (congrFun (foldlM_nil_eq_ok.mp h).symm A) hA
  | append_singleton us u ih =>
    rw [List.foldlM_append] at h
    obtain ⟨t₁,ht₁,h⟩ := bind_eq_ok.mp h
    obtain ⟨t₂,hu,h⟩ := foldlM_cons_eq_ok.mp h
    obtain rfl := foldlM_nil_eq_ok.mp h
    by_cases hlast : t₂ A = t₁ A
    · exact ih ht₁ (hlast ▸ hA)
    · -- the last update changed it, so it is one of the three addresses that update writes at
      obtain ⟨q,hq,helsewhere⟩ := updateProperty_elsewhere hu
      by_contra hnone
      obtain ⟨hproperty,hpage⟩ := not_or.mp (not_exists.mp hnone u.name)
      refine hlast (helsewhere A hproperty (fun hcurrent => ?_) fun k hk hnext => ?_)
      · exact hpage ⟨_,.current ht₁ hq,hcurrent⟩
      · exact hpage ⟨k,.next ht₁ hq hk,hnext⟩

/-- All properties that an update comes upon are at their first page. -/
theorem currentPage_updating {q : Property} (hs : Sane env s)
    (ht : us.foldlM (updateProperty env r signer ts) s = .ok t)
    (hq : getProperty env t r n = .ok (some q)) : q.currentPage = 1 := by
  have hsane : Sane env t := (ends_foldlM (fun _ _ _ h => updateProperty_ends h) hs).1 t ht
  exact hsane.current r n q (found_eq_some.mpr hq)

/-- Only first pages are written: the page after a full one is the first again. -/
theorem PageWrite.first (hs : Sane env s) (h : PageWrite env s r n k) : k = 1 := by
  cases h with
  | created => rfl
  | current ht hq => exact currentPage_updating hs ht hq
  | next ht hq hnext =>
    rw [currentPage_updating hs ht hq] at hnext
    exact nextPageNumber_one hnext

end Pages

section Reachable

variable {env : Env} {h : List (State × Tx)} {s : State} {A : Address} {c : Container}

/-- Every container of a reachable state is at the address of a key of its kind. -/
theorem reachable_keyed (hr : Reachable env h s) (hA : s A = some c) :
    ∃ key, Numbered key ∧ keyName key = containerName c ∧ keyAddress env.sha key = A := by
  have hs := (reachable_sane hr).canonical
  refine housed_key (hs.housed A c hA) fun es e k hc he hk => ?_
  have hpage := ledger_page_at hs.stored (hc ▸ hA) he hk
  rw [reachable_firstPages hr _ _ k e hpage]
  decide

/-- A change of a reachable state is well formed, so its entries decode. -/
theorem wellFormed_of_reachable (hr : Reachable env h s) (hA : s A = some c) :
    (Change.mk A c).WellFormed env.sha := by
  obtain ⟨key,hkey,_,hkeyA⟩ := reachable_keyed hr hA
  exact wellFormed_of_canonical (reachable_sane hr).canonical hA
    (hkeyA ▸ length_keyAddress hkey)

theorem reachable_currentPage (hr : Reachable env h s) {es : List Property} {q : Property}
    (hA : s A = some (.properties es)) (hq : q ∈ es) : q.currentPage = 1 :=
  (reachable_sane hr).current _ _ q (ledger_of_property (reachable_sane hr).canonical.stored hA hq)

end Reachable

/-- Ledger sync takes the containers of the state for what they are, and the pages stay apart
from the properties. -/
structure Classified (env : Env) (s : State) : Prop where
  stored : ∀ A c, s A = some c → A.length = 70 ∧ getProtoName A = .ok (containerName c) ∧
    Decodes env.sha ⟨A,c⟩
  currentPage : ∀ A es, s A = some (.properties es) →
    ∀ q ∈ es, 1 ≤ q.currentPage ∧ q.currentPage ≤ 0xffff
  written : ∀ r n k, PageWrite env s r n k → (1 ≤ k ∧ k ≤ 0xffff) ∧
    ∀ r' n', makePropertyAddress env.sha r n k ≠ makePropertyAddress env.sha r' n' 0
  updated : ∀ r signer ts (us : List PropertyValue) t,
    us.foldlM (updateProperty env r signer ts) s = .ok t → ∀ A, t A ≠ s A → ∃ n,
      A = makePropertyAddress env.sha r n 0 ∨
        ∃ k, PageWrite env s r n k ∧ A = makePropertyAddress env.sha r n k

theorem reachable_classified {env : Env} {h : List (State × Tx)} {s : State}
    (hr : Reachable env h s) : Classified env s where
  stored A c hA := by
    obtain ⟨key,hkey,hname,rfl⟩ := reachable_keyed hr hA
    exact ⟨length_keyAddress hkey,hname ▸ getProtoName_keyAddress hkey,
      (wellFormed_of_reachable hr hA).decodes⟩
  currentPage A es hA q hq := by
    rw [reachable_currentPage hr hA hq]
    decide
  written r n k hw := by
    obtain rfl := hw.first (reachable_sane hr)
    exact ⟨by decide,fun r' n' hA => nomatch (makePropertyAddress_inj hA).2.2⟩
  updated _ _ _ _ _ h _ hA := updates_written h hA

/-- The addresses of the processor have 70 characters and are apart for different kinds and for
different pages of a property, ledger sync reads the kind and the page from them, and so it
does with all that a reachable state holds. -/
theorem addresses_classified (env : Env) :
    (∀ key, Numbered key → (keyAddress env.sha key).length = 70 ∧
      getProtoName (keyAddress env.sha key) = .ok (keyName key)) ∧
    (∀ key key', Numbered key → Numbered key' → keyName key ≠ keyName key' →
      keyAddress env.sha key ≠ keyAddress env.sha key') ∧
    (∀ r n k k', k ≠ k' →
      makePropertyAddress env.sha r n k ≠ makePropertyAddress env.sha r n k') ∧
    (∀ r n k, k ≤ 0xffff → (makePropertyAddress env.sha r n k).length = 70 ∧
      getProtoName (makePropertyAddress env.sha r n k) =
        .ok (if k = 0 then .Property else .PropertyPage) ∧
      pageNum (makePropertyAddress env.sha r n k) = k) ∧
    ∀ h s, Reachable env h s → Classified env s := by
  refine ⟨fun key hkey => ⟨length_keyAddress hkey,getProtoName_keyAddress hkey⟩,
    fun key key' hkey hkey' => keyAddress_ne hkey hkey',fun r n k k' hne hA => ?_,
    fun r n k hk => ?_,fun h s hr => reachable_classified hr⟩
  · exact hne (makePropertyAddress_inj hA).2.2
  · have hlen := @length_makePropertyAddress env.sha r n k hk
    exact ⟨hlen,getProtoName_propertyAddress hlen,pageNum_propertyAddress hlen⟩

/-- The first page of a property, in a ledger with a record. -/
theorem addresses_classified_page : ∃ c,
    Sample.after [] (makePropertyAddress Sample.env.sha "r" "p" 1) = some c ∧
      containerName c = .PropertyPage ∧
      getProtoName (makePropertyAddress Sample.env.sha "r" "p" 1) = .ok .PropertyPage ∧
      pageNum (makePropertyAddress Sample.env.sha "r" "p" 1) = 1 := by
  have hstored : (Sample.after [] (makePropertyAddress Sample.env.sha "r" "p" 1)).map
      containerName = some .PropertyPage := by decide +kernel
  obtain ⟨c,hc,hname⟩ := Option.map_eq_some_iff.mp hstored
  obtain ⟨h,hr,_⟩ := @Sample.reachable [] (by decide +kernel)
  obtain ⟨_,_,_,hpages,hreachable⟩ := addresses_classified Sample.env
  have hproto := ((hreachable h _ hr).stored _ c hc).2.1
  exact ⟨c,hc,hname,hname ▸ hproto,(hpages "r" "p" 1 (by decide)).2.2⟩

end DgcRestApi.LedgerSync
