import Mathlib.Data.List.Nodup
import Mathlib.Data.List.Perm.Basic
import Polyvisor.Web.Boot

/-!
# Keys derived by a tab

`backupKdf` and `withKdfOwner` of `web/worker.ts`. One call at a time owns the derivation, and what
the kernel asks for meanwhile goes to the tab of that call. A request is over when this tab answers
it, when it departs, or when the time is up.

Ids are doubles, and from 2^53 on they do not grow. Then a request may take another one's place, and
the timeout is what ends that one.

## Main results

* `derivations_settled`: in every run, every request is settled once or has its timeout armed, a key
  comes from the tab that was asked, and no other tab sees a passphrase.
-/

namespace Polyvisor.SharedWorker

open Transition

variable {E : Type}

/-- What the derivations have come to. -/
structure Kdf where
  nextKdfRequest : ℕ
  kdfOwner : Option ℕ
  kdfWaiters : List (ℕ × ℕ)
  kdfTimeouts : List ℕ
  operations : List ℕ
  requests : List KdfRequest
  derived : List (ℕ × Except String Bytes)

def Worker.kdf (w : Worker E) : Kdf :=
  { nextKdfRequest := w.nextKdfRequest, kdfOwner := w.kdfOwner, kdfWaiters := w.kdfWaiters,
    kdfTimeouts := w.kdfTimeouts, operations := w.operations, requests := w.requests,
    derived := w.derived }

/-- What a tab is asked to derive. -/
def Post.asked : Post → Option (ℕ × String × Bytes)
  | .kdfRequest id passphrase salt => some (id, passphrase, salt)
  | _ => none

def Tab.asked (tab : Tab E) : List (ℕ × String × Bytes) :=
  tab.posted.filterMap Post.asked

def Worker.askedOf (w : Worker E) (t : ℕ) : List (ℕ × String × Bytes) :=
  (w.view Tab.asked t).getD []

/-- The requests to a tab. -/
def Kdf.requestsTo (k : Kdf) (t : ℕ) : List (ℕ × String × Bytes) :=
  (k.requests.filter (·.tab = t)).map fun request => (request.id, request.passphrase, request.salt)

/-- The requests are numbered, and every one is settled once or has its timeout armed; what waits
under an id is a request with this id. -/
structure Kdf.Lawful (k : Kdf) : Prop where
  once : (k.derived.map Prod.fst ++ k.kdfTimeouts).Perm (List.range k.requests.length)
  waiting : ∀ waiter ∈ k.kdfWaiters, waiter.2 ∈ k.kdfTimeouts ∧
    ∃ request, k.requests[waiter.2]? = some request ∧ request.id = waiter.1
  distinct : (k.kdfWaiters.map Prod.snd).Nodup
  next : k.nextKdfRequest = min k.requests.length (2 ^ 53)
  ids : ∀ n request, k.requests[n]? = some request → request.id = min (n + 1) (2 ^ 53)
  all : k.requests.length ≤ 2 ^ 53 → ∀ n ∈ k.kdfTimeouts, n ∈ k.kdfWaiters.map Prod.snd
  owned : ∀ request ∈ k.requests, k.operations[request.operation]? = some request.tab
  owner : ∀ t, k.kdfOwner = some t → k.operations.getLast? = some t

/-- The derivations are lawful; only tabs that said hello are waited for; and each tab has been
asked for what is requested of it. -/
structure Worker.Deriving (w : Worker E) : Prop where
  kdf : w.kdf.Lawful
  helloed : ∀ waiter ∈ w.kdfWaiters, ∃ request, w.requests[waiter.2]? = some request ∧
    w.isHelloed request.tab
  asked : ∀ t, w.askedOf t = w.kdf.requestsTo t

/-! ## One request -/

namespace Kdf

variable {k : Kdf}

theorem Lawful.nodup_timeouts (h : k.Lawful) : k.kdfTimeouts.Nodup := by
  have hnodup : (k.derived.map Prod.fst ++ k.kdfTimeouts).Nodup :=
    h.once.nodup_iff.2 List.nodup_range
  exact (List.nodup_append.1 hnodup).2.1

/-- A request is over. -/
def settle (k : Kdf) (n : ℕ) (request : KdfRequest) (outcome : Except String Bytes) : Kdf :=
  { k with
    kdfWaiters := k.kdfWaiters.filter (·.1 ≠ request.id)
    kdfTimeouts := k.kdfTimeouts.erase n
    derived := k.derived ++ [(n, outcome)] }

theorem Lawful.settle (h : k.Lawful) {n : ℕ} {request : KdfRequest} (hn : n ∈ k.kdfTimeouts)
    (hrequest : k.requests[n]? = some request) (outcome : Except String Bytes) :
    (k.settle n request outcome).Lawful where
  once := by
    have hmoved : (n :: k.kdfTimeouts.erase n).Perm k.kdfTimeouts :=
      (List.perm_cons_erase hn).symm
    have hsame : (k.settle n request outcome).derived.map Prod.fst ++ k.kdfTimeouts.erase n =
        k.derived.map Prod.fst ++ (n :: k.kdfTimeouts.erase n) := by simp [Kdf.settle]
    -- the request moves from the armed timeouts to what has settled
    exact hsame ▸ (hmoved.append_left _).trans h.once
  waiting waiter hwaiter := by
    obtain ⟨hmem, hne⟩ := List.mem_filter.1 hwaiter
    obtain ⟨htimeout, request', hrequest', hid⟩ := h.waiting waiter hmem
    refine ⟨(List.mem_erase_of_ne ?_).2 htimeout, request', hrequest', hid⟩
    -- another id is another request
    rintro rfl
    obtain rfl : request' = request := Option.some.inj (hrequest'.symm.trans hrequest)
    simp [hid] at hne
  distinct := h.distinct.sublist (List.filter_sublist.map _)
  next := h.next
  ids := h.ids
  all hfew n' hn' := by
    have hfew : k.requests.length ≤ 2 ^ 53 := hfew
    obtain ⟨hne, hn'⟩ := h.nodup_timeouts.mem_erase_iff.1 hn'
    obtain ⟨waiter, hwaiter, rfl⟩ := List.mem_map.1 (h.all hfew n' hn')
    refine List.mem_map.2 ⟨waiter, List.mem_filter.2 ⟨hwaiter, ?_⟩, rfl⟩
    obtain ⟨-, request', hrequest', hid⟩ := h.waiting waiter hwaiter
    -- so few requests have different ids, and the entry that goes is the settled one
    have hlt := (List.getElem?_eq_some_iff.1 hrequest').1
    have hlt' := (List.getElem?_eq_some_iff.1 hrequest).1
    have hids := h.ids _ _ hrequest
    have hids' := h.ids _ _ hrequest'
    simp only [ne_eq, decide_not, Bool.not_eq_eq_eq_not, Bool.not_true, decide_eq_false_iff_not]
    omega
  owned := h.owned
  owner := h.owner

/-- A request is dispatched to the owner. -/
def dispatch (k : Kdf) (operation tab : ℕ) (passphrase : String) (salt : Bytes) : Kdf :=
  let id := Worker.increment k.nextKdfRequest
  { k with
    nextKdfRequest := id
    requests := k.requests ++ [⟨id, tab, operation, passphrase, salt⟩]
    kdfWaiters := k.kdfWaiters.filter (·.1 ≠ id) ++ [(id, k.requests.length)]
    kdfTimeouts := k.kdfTimeouts ++ [k.requests.length] }

theorem increment_min (n : ℕ) :
    Worker.increment (min n (2 ^ 53)) = min (n + 1) (2 ^ 53) := by
  unfold Worker.increment
  split_ifs <;> omega

theorem getElem?_snoc {α : Type} {l : List α} {a b : α} {n : ℕ} (h : (l ++ [a])[n]? = some b) :
    l[n]? = some b ∨ n = l.length ∧ a = b := by
  rw [List.getElem?_append] at h
  split_ifs at h with hlt
  · exact .inl h
  · obtain ⟨hn, hab⟩ := List.getElem?_eq_some_iff.1 h
    rw [List.length_singleton] at hn
    exact .inr ⟨by omega, by simpa using hab⟩

theorem Lawful.dispatch (h : k.Lawful) {operation tab : ℕ} (howner : k.kdfOwner = some tab)
    (hlast : operation + 1 = k.operations.length) (passphrase : String) (salt : Bytes) :
    (k.dispatch operation tab passphrase salt).Lawful := by
  have hid : Worker.increment k.nextKdfRequest = min (k.requests.length + 1) (2 ^ 53) := by
    rw [h.next, increment_min]
  have hlast : k.operations[operation]? = some tab := by
    rw [← h.owner tab howner, List.getLast?_eq_getElem?, ← hlast, Nat.add_sub_cancel]
  refine ⟨?_, fun waiter hwaiter => ?_, ?_, ?_, fun n request hrequest => ?_, fun hfew n hn => ?_,
    fun request hrequest => ?_, h.owner⟩
  -- its timeout is armed, and it has not settled
  · have hnew : (k.derived.map Prod.fst ++ (k.kdfTimeouts ++ [k.requests.length])).Perm
        (List.range (k.requests.length + 1)) := by
      rw [List.range_succ, ← List.append_assoc]
      exact h.once.append_right _
    simpa [Kdf.dispatch] using hnew
  · obtain hwaiter | hwaiter := List.mem_append.1 hwaiter
    · obtain ⟨htimeout, request, hrequest, hrid⟩ := h.waiting waiter (List.mem_filter.1 hwaiter).1
      refine ⟨List.mem_append_left _ htimeout, request, ?_, hrid⟩
      show (k.requests ++ _)[waiter.2]? = some request
      rw [List.getElem?_append_left (List.getElem?_eq_some_iff.1 hrequest).1, hrequest]
    · rw [List.mem_singleton.1 hwaiter]
      exact ⟨List.mem_append_right _ List.mem_cons_self, _, List.getElem?_concat_length, rfl⟩
  -- it is numbered after all that wait
  · have hold : ((k.kdfWaiters.filter (·.1 ≠ Worker.increment k.nextKdfRequest)).map
        Prod.snd).Nodup := h.distinct.sublist (List.filter_sublist.map _)
    simp only [Kdf.dispatch, List.map_append, List.map_cons, List.map_nil]
    refine List.nodup_append.2 ⟨hold, List.nodup_singleton _, fun n hn m hm => ?_⟩
    obtain ⟨waiter, hwaiter, rfl⟩ := List.mem_map.1 hn
    obtain ⟨-, request, hrequest, -⟩ := h.waiting waiter (List.mem_filter.1 hwaiter).1
    rw [List.mem_singleton.1 hm]
    exact Nat.ne_of_lt (List.getElem?_eq_some_iff.1 hrequest).1
  · show Worker.increment k.nextKdfRequest = min (k.requests ++ [_]).length (2 ^ 53)
    rw [hid, List.length_append, List.length_singleton]
  · obtain hold | ⟨rfl, rfl⟩ := getElem?_snoc hrequest
    · exact h.ids n request hold
    · exact hid
  · have hfew : k.requests.length + 1 ≤ 2 ^ 53 := by simpa [Kdf.dispatch] using hfew
    show n ∈ (k.kdfWaiters.filter (·.1 ≠ Worker.increment k.nextKdfRequest) ++
      [(Worker.increment k.nextKdfRequest, k.requests.length)]).map Prod.snd
    rw [List.map_append]
    obtain hn | hn := List.mem_append.1 hn
    · obtain ⟨waiter, hwaiter, rfl⟩ := List.mem_map.1 (h.all (by omega) n hn)
      refine List.mem_append_left _ (List.mem_map.2 ⟨waiter, List.mem_filter.2 ⟨hwaiter, ?_⟩, rfl⟩)
      -- the new id is greater than any other
      obtain ⟨-, request, hrequest, hrid⟩ := h.waiting waiter hwaiter
      have hlt := (List.getElem?_eq_some_iff.1 hrequest).1
      have hids := h.ids _ _ hrequest
      rw [decide_eq_true_iff, hid, ← hrid, hids]
      omega
    · rw [List.mem_singleton.1 hn]
      exact List.mem_append_right _ List.mem_cons_self
  · obtain hold | hnew := List.mem_append.1 hrequest
    · exact h.owned request hold
    · rw [List.mem_singleton.1 hnew]
      exact hlast

/-- Several requests are over at once. -/
theorem Lawful.settleAll {k : Kdf} (h : k.Lawful) (error : String) (l : List (ℕ × KdfRequest))
    (hnodup : (l.map Prod.fst).Nodup)
    (hl : ∀ waiter ∈ l, waiter.1 ∈ k.kdfTimeouts ∧ k.requests[waiter.1]? = some waiter.2) :
    (l.foldl (fun k waiter => k.settle waiter.1 waiter.2 (.error error)) k).Lawful := by
  induction l generalizing k with
  | nil => exact h
  | cons waiter l ih =>
    rw [List.map_cons, List.nodup_cons] at hnodup
    obtain ⟨htimeout, hrequest⟩ := hl waiter List.mem_cons_self
    -- the others still have their timeouts, for their numbers are different
    refine ih (h.settle htimeout hrequest _) hnodup.2 fun other hother => ?_
    obtain ⟨htimeout', hrequest'⟩ := hl other (List.mem_cons_of_mem _ hother)
    refine ⟨(List.mem_erase_of_ne fun heq => hnodup.1 ?_).2 htimeout', hrequest'⟩
    exact heq ▸ List.mem_map_of_mem hother

end Kdf

/-! ## What leaves the derivations alone -/

theorem Tab.asked_post {m : Post} (hm : m.asked = none) (tab : Tab E) :
    (tab.post m).asked = tab.asked := by
  unfold Tab.post
  split_ifs
  · simp [Tab.asked, hm]
  · rfl

/-- A tab is not asked for a key, and does not take its hello back. -/
def Tab.Apart (tab tab' : Tab E) : Prop :=
  (tab.helloed → tab'.helloed) ∧ tab'.asked = tab.asked

theorem Tab.apart_post {m : Post} (hm : m.asked = none) (tab : Tab E) : tab.Apart (tab.post m) :=
  ⟨fun htab => by simpa using htab, Tab.asked_post hm tab⟩

theorem Tab.Apart.ite {tab tab' : Tab E} (h : tab.Apart tab') (c : Prop) [Decidable c] :
    tab.Apart (if c then tab' else tab) := by
  split_ifs
  · exact h
  · exact ⟨id, rfl⟩

namespace Worker

/-- No tab is asked for a key or takes its hello back, and no request is over. -/
structure Apart (w w' : Worker E) : Prop where
  kdf : w'.kdf = w.kdf
  helloed : ∀ t, w.isHelloed t → w'.isHelloed t
  asked : ∀ t, w'.askedOf t = w.askedOf t

theorem Apart.trans {w w' w'' : Worker E} (h : w.Apart w') (h' : w'.Apart w'') : w.Apart w'' :=
  ⟨h'.kdf.trans h.kdf, fun t => h'.helloed t ∘ h.helloed t,
    fun t => (h'.asked t).trans (h.asked t)⟩

theorem Apart.derived {w w' : Worker E} (h : w.Apart w') : w'.derived = w.derived :=
  congrArg Kdf.derived h.kdf

theorem Apart.requests {w w' : Worker E} (h : w.Apart w') : w'.requests = w.requests :=
  congrArg Kdf.requests h.kdf

theorem Deriving.apart {w w' : Worker E} (h : w.Deriving) (ha : w.Apart w') : w'.Deriving := by
  refine ⟨ha.kdf ▸ h.kdf, fun waiter hwaiter => ?_, fun t => ?_⟩
  · have hwaiters : w'.kdfWaiters = w.kdfWaiters := congrArg Kdf.kdfWaiters ha.kdf
    have hrequests : w'.requests = w.requests := congrArg Kdf.requests ha.kdf
    obtain ⟨request, hrequest, hhelloed⟩ := h.helloed waiter (hwaiters ▸ hwaiter)
    exact ⟨request, hrequests ▸ hrequest, ha.helloed _ hhelloed⟩
  · rw [ha.asked, ha.kdf, h.asked]

theorem Apart.of_eq {w w' : Worker E} (h : (w'.kdf, w'.tabs) = (w.kdf, w.tabs)) :
    w.Apart w' := by
  obtain ⟨hkdf, htabs⟩ := Prod.mk.inj h
  exact ⟨hkdf, fun t => by simp [isHelloed, htabs], fun t => by simp [askedOf, view, htabs]⟩

theorem isHelloed_iff {w : Worker E} {t : ℕ} :
    w.isHelloed t ↔ ∃ tab, w.tabs[t]? = some tab ∧ tab.helloed := by
  cases htab : w.tabs[t]? <;> simp [isHelloed, htab]

theorem apart_update (w : Worker E) (t : ℕ) {f : Tab E → Tab E}
    (hf : ∀ tab : Tab E, tab.Apart (f tab)) : w.Apart (w.update t f) := by
  have hasked (t' : ℕ) : (w.update t f).askedOf t' = w.askedOf t' := by
    rw [askedOf, view_update fun tab => (hf tab).2, askedOf]
  refine ⟨rfl, fun t' h => ?_, hasked⟩
  obtain ⟨tab, htab, hhelloed⟩ := isHelloed_iff.1 h
  simp only [isHelloed, update, List.getElem?_modify, htab]
  split_ifs
  · simpa using (hf tab).1 hhelloed
  · simpa using hhelloed

theorem apart_each (w : Worker E) {f : Tab E → Tab E} (hf : ∀ tab : Tab E, tab.Apart (f tab)) :
    w.Apart (w.each f) := by
  refine ⟨rfl, fun t h => ?_, fun t => by rw [askedOf, view_each fun tab => (hf tab).2, askedOf]⟩
  obtain ⟨tab, htab, hhelloed⟩ := isHelloed_iff.1 h
  simpa [isHelloed, each, htab] using (hf tab).1 hhelloed

theorem apart_post (w : Worker E) (t : ℕ) {m : Post} (hm : m.asked = none) :
    w.Apart (w.post t m) :=
  w.apart_update t (Tab.apart_post hm)

theorem apart_foldl {β : Type} {f : Worker E → β → Worker E} (hf : ∀ w b, Apart w (f w b))
    (l : List β) (w : Worker E) : w.Apart (l.foldl f w) := by
  induction l generalizing w with
  | nil => exact .of_eq rfl
  | cons b l ih => exact (hf w b).trans (ih (f w b))

theorem apart_fail (w : Worker E) (message : String) : w.Apart (w.fail message) := by
  unfold fail
  refine Apart.trans (.trans (.of_eq (by rfl)) (apart_each _ fun tab => ?_))
    (.trans (.of_eq (by rfl)) (apart_foldl (fun w _ => w.apart_post _ rfl) _ _))
  exact (Tab.apart_post rfl tab).ite _

theorem apart_live (w : Worker E) : w.Apart w.live := by
  unfold live
  exact Apart.trans (.trans (.of_eq (by rfl)) (apart_each _ (Tab.apart_post rfl)))
    (.trans (.of_eq (by rfl)) (apart_foldl (fun w _ => w.apart_post _ rfl) _ _))

theorem apart_answerErase (w : Worker E) (error : Option String) :
    w.Apart (w.answerErase error) :=
  Apart.trans (.of_eq (by rfl)) (apart_foldl (fun w _ => w.apart_post _ rfl) _ _)

theorem apart_erased (w : Worker E) (failure : Option String) : w.Apart (w.erased failure) := by
  unfold erased
  split
  · exact .of_eq rfl
  · refine Apart.trans (.trans (.of_eq (by rfl)) (apart_each _ fun tab => ?_))
      (apart_answerErase _ _)
    exact (Tab.apart_post rfl tab).ite _
  · exact Apart.trans (.of_eq (by rfl)) (apart_answerErase _ _)
  · exact Apart.trans (.of_eq (by rfl)) (apart_answerErase _ _)
  · exact .of_eq rfl

theorem apart_eraseFailedDevice (w : Worker E) (t : ℕ) (request : Option ℤ) :
    w.Apart (w.eraseFailedDevice t request) := by
  unfold eraseFailedDevice
  split
  · exact .of_eq rfl
  · split
    · exact .of_eq rfl
    · split
      · exact w.apart_post t rfl
      · split
        · exact .of_eq rfl
        · exact w.apart_post t rfl
      · exact w.apart_post t rfl
      · exact .of_eq rfl

theorem apart_tellFailure (w : Worker E) (t : ℕ) : w.Apart (w.tellFailure t) := by
  unfold tellFailure
  split
  · exact .of_eq rfl
  · split_ifs <;> exact w.apart_post t rfl

theorem apart_framePort (w : Worker E) (t session : ℕ) : w.Apart (w.framePort t session) := by
  unfold framePort
  split
  · exact w.apart_post t rfl
  · exact w.apart_post t rfl
  · exact .of_eq rfl

theorem apart_locked (w : Worker E) (failure : Option String) : w.Apart (w.locked failure) := by
  unfold locked
  split
  · exact .of_eq rfl
  · exact w.apart_fail _
  · exact .of_eq rfl

theorem apart_loaded (w : Worker E) (failure : Option String) : w.Apart (w.loaded failure) := by
  unfold loaded
  split
  · exact .of_eq rfl
  · exact w.apart_fail _
  · exact .of_eq rfl

theorem apart_booted (w : Worker E) (failure : Option String) : w.Apart (w.booted failure) := by
  unfold booted
  split
  · exact w.apart_live
  · exact w.apart_fail _
  · exact .of_eq rfl

theorem apart_push (w : Worker E) (ev : E) : w.Apart (w.push ev) := by
  simp only [push]
  split_ifs <;> exact .of_eq rfl

theorem apart_poll (w : Worker E) : w.Apart w.poll := by
  unfold poll
  split
  · split <;> exact .of_eq rfl
  · exact .of_eq rfl

theorem apart_stopped (w : Worker E) : w.Apart w.stopped := by
  unfold stopped
  split <;> exact .of_eq rfl

theorem apart_answered (w : Worker E) : w.Apart w.answered := by
  unfold answered
  split
  · refine Apart.trans (.of_eq (by rfl)) (apart_each _ fun tab => ?_)
    unfold Tab.offer
    split_ifs <;> exact ⟨id, rfl⟩
  · exact .of_eq rfl

theorem apart_connect (w : Worker E) : w.Apart w.connect := by
  have hposted (c : Prop) [Decidable c] : Tab.asked (E := E)
      (if c then Tab.post .booted { joined := w.fanned.length }
        else { joined := w.fanned.length }) =
        [] := by
    split_ifs
    · exact Tab.asked_post rfl _
    · rfl
  refine ⟨rfl, fun t ht => ?_, fun t => ?_⟩
  · obtain ⟨tab, htab, hhelloed⟩ := isHelloed_iff.1 ht
    refine isHelloed_iff.2 ⟨tab, ?_, hhelloed⟩
    show (w.tabs ++ _)[t]? = some tab
    rw [List.getElem?_append_left (List.getElem?_eq_some_iff.1 htab).1, htab]
  · simp only [askedOf, view, connect]
    obtain hlt | hge := Nat.lt_or_ge t w.tabs.length
    · rw [List.getElem?_append_left hlt]
    · rw [List.getElem?_append_right hge, List.getElem?_eq_none hge]
      cases hn : t - w.tabs.length with
      | zero => simpa using hposted _
      | succ n => simp

/-! ## What changes them -/

theorem kdf_depart (w : Worker E) (t : ℕ) :
    (w.depart t).kdf = (w.waitingOn t).foldl
      (fun k waiter => k.settle waiter.1 waiter.2 (.error "the requesting tab departed"))
      w.kdf := by
  have hfold (l : List (ℕ × KdfRequest)) (w : Worker E) :
      (l.foldl (fun w waiter => (w.post t (.kdfCancel waiter.2.id)).settle waiter.1 waiter.2
        (.error "the requesting tab departed")) w).kdf =
      l.foldl (fun k waiter => k.settle waiter.1 waiter.2 (.error "the requesting tab departed"))
        w.kdf := by
    induction l generalizing w with
    | nil => rfl
    | cons waiter l ih => exact ih _
  exact hfold _ _

theorem asked_depart (w : Worker E) (t t' : ℕ) : (w.depart t).askedOf t' = w.askedOf t' := by
  have hcancelled (w : Worker E) (waiter : ℕ × KdfRequest) :
      ((w.post t (.kdfCancel waiter.2.id)).settle waiter.1 waiter.2
        (.error "the requesting tab departed")).view Tab.asked t' = w.view Tab.asked t' :=
    view_update (Tab.asked_post rfl) t t'
  unfold askedOf depart
  rw [view_foldl hcancelled, view_update]
  exact fun tab => rfl

theorem mem_waitingOn {w : Worker E} {t : ℕ} {found : ℕ × KdfRequest} :
    found ∈ w.waitingOn t ↔ w.requests[found.1]? = some found.2 ∧ found.2.tab = t ∧
      found.1 ∈ w.kdfWaiters.map Prod.snd := by
  simp only [waitingOn, List.mem_filterMap, Option.map_eq_some_iff, Option.filter_eq_some_iff,
    decide_eq_true_eq, List.mem_map]
  constructor
  · rintro ⟨waiter, hwaiter, request, ⟨hrequest, htab⟩, rfl⟩
    exact ⟨hrequest, htab, waiter, hwaiter, rfl⟩
  · rintro ⟨hrequest, htab, waiter, hwaiter, hn⟩
    exact ⟨waiter, hwaiter, found.2, ⟨hn ▸ hrequest, htab⟩, by rw [hn]⟩

theorem nodup_waitingOn {w : Worker E} (h : w.kdf.Lawful) (t : ℕ) :
    ((w.waitingOn t).map Prod.fst).Nodup := by
  have hsublist (l : List (ℕ × ℕ)) :
      ((l.filterMap fun waiter => (w.requests[waiter.2]?.filter (·.tab = t)).map
        (waiter.2, ·)).map Prod.fst).Sublist (l.map Prod.snd) := by
    induction l with
    | nil => exact .slnil
    | cons waiter l ih =>
      rw [List.filterMap_cons, List.map_cons]
      split
      · exact ih.cons _
      next found hfound =>
        obtain ⟨request, -, rfl⟩ := Option.map_eq_some_iff.1 hfound
        exact ih.cons_cons _
  exact h.distinct.sublist (hsublist w.kdfWaiters)

/-- What is over is no longer waited for. -/
theorem mem_waiters_settleAll (error : String) (l : List (ℕ × KdfRequest)) (k : Kdf)
    (waiter : ℕ × ℕ) :
    waiter ∈ (l.foldl (fun k found => k.settle found.1 found.2 (.error error)) k).kdfWaiters ↔
      waiter ∈ k.kdfWaiters ∧ ∀ found ∈ l, waiter.1 ≠ found.2.id := by
  induction l generalizing k with
  | nil => simp
  | cons found l ih =>
    rw [List.foldl_cons, ih, List.forall_mem_cons]
    simp [Kdf.settle, and_assoc]

theorem requests_settleAll (error : String) (l : List (ℕ × KdfRequest)) (k : Kdf) :
    (l.foldl (fun k found => k.settle found.1 found.2 (.error error)) k).requests = k.requests := by
  induction l generalizing k with
  | nil => rfl
  | cons found l ih => exact ih _

theorem Deriving.depart {w : Worker E} (h : w.Deriving) (t : ℕ) : (w.depart t).Deriving := by
  have hrequests : (w.depart t).kdf.requests = w.requests := by
    rw [kdf_depart, requests_settleAll]
    rfl
  refine ⟨?_, fun waiter hwaiter => ?_, fun t' => ?_⟩
  · rw [kdf_depart]
    refine h.kdf.settleAll _ _ (nodup_waitingOn h.kdf t) fun found hfound => ?_
    obtain ⟨hrequest, -, hmem⟩ := mem_waitingOn.1 hfound
    obtain ⟨waiter, hwaiter, hn⟩ := List.mem_map.1 hmem
    exact ⟨hn ▸ (h.kdf.waiting waiter hwaiter).1, hrequest⟩
  · have hwaiter : waiter ∈ (w.depart t).kdf.kdfWaiters := hwaiter
    rw [kdf_depart, mem_waiters_settleAll] at hwaiter
    obtain ⟨request, hrequest, hhelloed⟩ := h.helloed waiter hwaiter.1
    refine ⟨request, (congrArg (·[waiter.2]?) hrequests).trans hrequest, ?_⟩
    -- nothing that waits is the departing tab's
    have hother : request.tab ≠ t := by
      intro htab
      obtain ⟨-, request', hrequest', hid⟩ := h.kdf.waiting waiter hwaiter.1
      obtain rfl : request = request' := Option.some.inj (hrequest.symm.trans hrequest')
      exact hwaiter.2 (waiter.2, request)
        (mem_waitingOn.2 ⟨hrequest, htab, List.mem_map_of_mem hwaiter.1⟩) hid.symm
    rw [isHelloed_eq, standing_depart, if_neg hother, ← isHelloed_eq]
    exact hhelloed
  · rw [asked_depart, h.asked, Kdf.requestsTo, Kdf.requestsTo, hrequests]
    rfl

theorem Deriving.settle {w : Worker E} (h : w.Deriving) {n : ℕ} {request : KdfRequest}
    (hn : n ∈ w.kdfTimeouts) (hrequest : w.requests[n]? = some request)
    (outcome : Except String Bytes) : (w.settle n request outcome).Deriving :=
  ⟨h.kdf.settle hn hrequest outcome,
    fun waiter hwaiter => h.helloed waiter (List.mem_filter.1 hwaiter).1, h.asked⟩

theorem Deriving.timeout {w : Worker E} (h : w.Deriving) (n : ℕ) : (w.timeout n).Deriving := by
  unfold Worker.timeout
  split
  next => exact h
  next request hrequest =>
    split_ifs with hn
    · exact (h.settle hn hrequest _).apart (apart_post _ _ rfl)
    · exact h

/-- The answer of the tab that was asked. -/
theorem kdfResponse_cases {w : Worker E} (h : w.kdf.Lawful) (t id : ℕ) (key : Option Bytes)
    (error : Option String) :
    w.kdfResponse t id key error = w ∨ ∃ n request, n ∈ w.kdfTimeouts ∧
      w.requests[n]? = some request ∧ request.tab = t ∧ request.id = id ∧
      w.kdfResponse t id key error = w.settle n request (keyOf key error) := by
  unfold kdfResponse
  split
  next => exact .inl rfl
  next n hn =>
    have hwaiter : (id, n) ∈ w.kdf.kdfWaiters := by
      -- the entry names the request, whatever became of the ones before it
      obtain ⟨before, after, hwaiters, -⟩ := List.lookup_eq_some_iff.1 hn
      show (id, n) ∈ w.kdfWaiters
      rw [hwaiters]
      exact List.mem_append_right _ List.mem_cons_self
    obtain ⟨htimeout, request, hrequest, hid⟩ := h.waiting _ hwaiter
    have hrequest : w.requests[n]? = some request := hrequest
    simp only [hrequest]
    split_ifs with htab
    · exact .inl rfl
    · exact .inr ⟨n, request, htimeout, hrequest, Decidable.not_not.1 htab, hid, rfl⟩

theorem Deriving.kdfResponse {w : Worker E} (h : w.Deriving) (t id : ℕ) (key : Option Bytes)
    (error : Option String) : (w.kdfResponse t id key error).Deriving := by
  obtain heq | ⟨n, request, hn, hrequest, -, -, heq⟩ := kdfResponse_cases h.kdf t id key error
  · rwa [heq]
  · rw [heq]
    exact h.settle hn hrequest _

/-- A tab that said hello has an open port. -/
theorem Sound.isOpen {w : Worker E} (h : w.Sound) {t : ℕ} (ht : w.isHelloed t) :
    ∃ tab, w.tabs[t]? = some tab ∧ tab.isOpen := by
  obtain ⟨tab, htab, hhelloed⟩ := isHelloed_iff.1 ht
  have htold := h.tabs tab (List.mem_of_getElem? htab)
  exact ⟨tab, htab, htold.open_of_connected (htold.connected hhelloed)⟩

/-- What a tab is asked for once the message is posted. -/
theorem askedOf_post {w : Worker E} {t : ℕ} {tab : Tab E} (htab : w.tabs[t]? = some tab)
    (hopen : tab.isOpen) (id : ℕ) (passphrase : String) (salt : Bytes) (t' : ℕ) :
    (w.post t (.kdfRequest id passphrase salt)).askedOf t' =
      w.askedOf t' ++ if t = t' then [(id, passphrase, salt)] else [] := by
  simp only [askedOf, view, post, update, List.getElem?_modify]
  split_ifs with heq
  · subst heq
    simp [htab, Tab.asked, Tab.post, hopen, Post.asked]
  · simp

theorem Deriving.dispatch {w : Worker E} (h : w.Deriving) (hsound : w.Sound) {operation t : ℕ}
    (howner : w.kdfOwner = some t) (hlast : operation + 1 = w.operations.length)
    (ht : w.isHelloed t) (passphrase : String) (salt : Bytes) {w' : Worker E}
    (htabs : w'.tabs = w.tabs) (hkdf : w'.kdf = w.kdf.dispatch operation t passphrase salt) :
    (w'.post t (.kdfRequest (increment w.nextKdfRequest) passphrase salt)).Deriving := by
  have hhelloed (t' : ℕ) : (w'.post t (.kdfRequest (increment w.nextKdfRequest) passphrase
      salt)).isHelloed t' = w.isHelloed t' := by
    rw [isHelloed_eq, standing_post, ← isHelloed_eq, isHelloed, isHelloed, htabs]
  -- a message to a port that has closed would not be heard
  obtain ⟨tab, htab, hopen⟩ := hsound.isOpen ht
  refine ⟨?_, fun waiter hwaiter => ?_, fun t' => ?_⟩
  · exact hkdf ▸ h.kdf.dispatch howner hlast passphrase salt
  · have hrequests : w'.requests = (w.kdf.dispatch operation t passphrase salt).requests :=
      congrArg Kdf.requests hkdf
    have hwaiters : w'.kdfWaiters = (w.kdf.dispatch operation t passphrase salt).kdfWaiters :=
      congrArg Kdf.kdfWaiters hkdf
    have hwaiter : waiter ∈ (w.kdf.dispatch operation t passphrase salt).kdfWaiters :=
      hwaiters ▸ hwaiter
    simp only [hhelloed]
    show ∃ request, w'.requests[waiter.2]? = some request ∧ _
    rw [hrequests]
    obtain hwaiter | hwaiter := List.mem_append.1 hwaiter
    · obtain ⟨request, hrequest, hold⟩ := h.helloed waiter (List.mem_filter.1 hwaiter).1
      refine ⟨request, ?_, hold⟩
      show (w.requests ++ _)[waiter.2]? = some request
      rw [List.getElem?_append_left (List.getElem?_eq_some_iff.1 hrequest).1, hrequest]
    · rw [List.mem_singleton.1 hwaiter]
      exact ⟨_, List.getElem?_concat_length, ht⟩
  · rw [askedOf_post (htabs ▸ htab) hopen]
    show w'.askedOf t' ++ _ = w'.kdf.requestsTo t'
    have hold : w'.askedOf t' = w.kdf.requestsTo t' := by
      rw [← h.asked, askedOf, askedOf, view, view, htabs]
    rw [hold, hkdf, Kdf.requestsTo, Kdf.requestsTo]
    show _ = ((w.requests ++ [_]).filter _).map _
    rw [List.filter_append, List.map_append]
    congr 1
    by_cases heq : t = t'
    · subst heq
      simp only [↓reduceIte, decide_true, List.filter_cons_of_pos, List.filter_nil, List.map_cons,
        List.map_nil]
      rfl
    · simp [heq]

theorem Deriving.derive {w : Worker E} (h : w.Deriving) (hsound : w.Sound) (operation : ℕ)
    (passphrase : String) (salt : Bytes) : (w.derive operation passphrase salt).Deriving := by
  unfold Worker.derive
  split_ifs with hrefused
  · exact h
  · split
    next => exact h
    next t howner =>
      split_ifs with ht
      · exact h
      · have hlast : operation + 1 = w.operations.length :=
          not_not.1 fun hother => hrefused (.inl hother)
        exact h.dispatch hsound howner hlast (by simpa using ht) passphrase salt rfl rfl

theorem Deriving.backup {w : Worker E} (h : w.Deriving) (t : ℕ) : (w.backup t).Deriving := by
  unfold Worker.backup
  split_ifs
  · refine ⟨{ h.kdf with owned := fun request hrequest => ?_, owner := fun t' ht' => ?_ },
      h.helloed, h.asked⟩
    · have hold : w.operations[request.operation]? = some request.tab :=
        h.kdf.owned request hrequest
      show (w.operations ++ [t])[request.operation]? = some request.tab
      rwa [List.getElem?_append_left (List.getElem?_eq_some_iff.1 hold).1]
    -- the owner is the tab of the operation that began last
    · obtain rfl : t = t' := Option.some.inj ht'
      exact List.getLast?_concat
  · exact h

theorem Deriving.sayHello {w : Worker E} (h : w.Deriving) (t : ℕ) (data : Hello) :
    (w.sayHello t data).Deriving := by
  have hgreet (w : Worker E) (f : Tab E → Tab E) (hf : ∀ tab : Tab E, tab.Apart (f tab)) :
      w.Apart ((w.update t f).tellFailure t) :=
    (w.apart_update t hf).trans (apart_tellFailure _ t)
  unfold Worker.sayHello
  split
  next =>
    refine h.apart (.trans (.of_eq (by rfl)) (hgreet _ _ fun tab => ⟨fun htab => ?_, rfl⟩))
    simp [htab]
  next =>
    split_ifs
    · refine (Deriving.depart ?_ t).apart (apart_update _ t fun tab => ⟨id, rfl⟩)
      exact h.apart (w.apart_post t rfl)
    · exact h.apart (hgreet w _ fun tab => ⟨fun _ => rfl, rfl⟩)

theorem Deriving.message {w : Worker E} (h : w.Deriving) (t : ℕ) (m : Message) :
    (w.message t m).Deriving := by
  cases m with
  | hello data => exact h.sayHello t data
  | depart => exact h.depart t
  | kdfResponse id key error => exact h.kdfResponse t id key error
  | eraseFailedDevice request => exact h.apart (w.apart_eraseFailedDevice t request)
  | framePort session => exact h.apart (w.apart_framePort t session)

theorem deriving_step (w : Worker E) (ev : Event E) (h : w.Deriving) (hsound : w.Sound) :
    (w.step ev).Deriving := by
  cases ev with
  | connect => exact h.apart w.apart_connect
  | message t m =>
    simp only [step]
    split_ifs
    · exact h.message t m
    · exact h
  | locked failure => exact h.apart (w.apart_locked failure)
  | loaded failure => exact h.apart (w.apart_loaded failure)
  | booted failure => exact h.apart (w.apart_booted failure)
  | erased failure => exact h.apart (w.apart_erased failure)
  | push ev => exact h.apart (w.apart_push ev)
  | poll => exact h.apart w.apart_poll
  | answered => exact h.apart w.apart_answered
  | stopped => exact h.apart w.apart_stopped
  | next t =>
    simp only [step]
    split_ifs
    · exact h.apart (w.apart_update t fun tab => ⟨id, rfl⟩)
    · exact h
  | backup t =>
    simp only [step]
    split_ifs
    · exact h.backup t
    · exact h
  | backedUp =>
    exact ⟨{ h.kdf with owner := fun t ht => by simp [kdf, step] at ht }, h.helloed, h.asked⟩
  | derive operation passphrase salt => exact h.derive hsound operation passphrase salt
  | timeout n => exact h.timeout n

theorem deriving_start : Deriving ({} : Worker E) where
  kdf := ⟨.refl _, by simp [kdf], by simp [kdf], rfl, by simp [kdf], by simp [kdf], by simp [kdf],
    by simp [kdf]⟩
  helloed := by simp
  asked t := by simp [askedOf, view, kdf, Kdf.requestsTo]

theorem deriving_run (ls : List (Event E)) : Deriving (run step ({} : Worker E) ls) := by
  have hstep (w : Worker E) (ev : Event E) (h : w.Sound ∧ w.Deriving) :
      (w.step ev).Sound ∧ (w.step ev).Deriving :=
    ⟨sound_step w ev h.1, deriving_step w ev h.2 h.1⟩
  exact (run_preserves hstep ⟨sound_start, deriving_start⟩ ls).2

/-! ## Where the keys come from -/

theorem key_depart {w : Worker E} {t n : ℕ} {key : Bytes}
    (hkey : (n, .ok key) ∈ (w.depart t).derived) : (n, .ok key) ∈ w.derived := by
  have hfold (l : List (ℕ × KdfRequest)) (k : Kdf) (h : (n, .ok key) ∈ (l.foldl
      (fun k found => k.settle found.1 found.2 (.error "the requesting tab departed")) k).derived) :
      (n, .ok key) ∈ k.derived := by
    induction l generalizing k with
    | nil => exact h
    | cons found l ih => simpa [Kdf.settle] using ih _ h
  have hkey : (n, .ok key) ∈ (w.depart t).kdf.derived := hkey
  rw [kdf_depart] at hkey
  exact hfold _ _ hkey

theorem key_sayHello {w : Worker E} {t n : ℕ} {data : Hello} {key : Bytes}
    (hkey : (n, .ok key) ∈ (w.sayHello t data).derived) : (n, .ok key) ∈ w.derived := by
  have htell (w : Worker E) : (w.tellFailure t).derived = w.derived :=
    congrArg Kdf.derived (w.apart_tellFailure t).kdf
  unfold sayHello at hkey
  split at hkey
  next =>
    rw [htell] at hkey
    exact hkey
  next hello _ =>
    split_ifs at hkey
    · have hdeparted : (n, .ok key) ∈
          ((w.post t (.fatal (mismatch hello.device data.device) false)).depart t).derived := hkey
      have hkept := key_depart hdeparted
      exact hkept
    · rw [htell] at hkey
      exact hkey

theorem ok_keyOf {key : Option Bytes} {error : Option String} {key' : Bytes}
    (h : .ok key' = keyOf key error) : key = some key' ∧ key'.length = 32 := by
  unfold keyOf at h
  split at h
  · split_ifs at h with hlength
    obtain rfl := Except.ok.inj h
    exact ⟨rfl, Decidable.not_not.1 hlength⟩
  · simp at h

/-- A key that is new was posted by the tab that had been asked. -/
theorem key_message {w : Worker E} (h : w.kdf.Lawful) {t n : ℕ} {m : Message} {key : Bytes}
    (hkey : (n, .ok key) ∈ (w.message t m).derived) :
    (n, .ok key) ∈ w.derived ∨ ∃ request error, w.requests[n]? = some request ∧
      key.length = 32 ∧ request.tab = t ∧ m = .kdfResponse request.id (some key) error := by
  have hapart {w' : Worker E} (ha : w.Apart w') (hkey : (n, .ok key) ∈ w'.derived) :
      (n, .ok key) ∈ w.derived := ha.derived ▸ hkey
  cases m with
  | hello data => exact .inl (key_sayHello hkey)
  | depart => exact .inl (key_depart hkey)
  | eraseFailedDevice request => exact .inl (hapart (w.apart_eraseFailedDevice t request) hkey)
  | framePort session => exact .inl (hapart (w.apart_framePort t session) hkey)
  | kdfResponse id key' error =>
    have hkey : (n, .ok key) ∈ (w.kdfResponse t id key' error).derived := hkey
    obtain heq | ⟨n', request, -, hrequest, htab, rfl, heq⟩ := kdfResponse_cases h t id key' error
    · exact .inl (heq ▸ hkey)
    · rw [heq] at hkey
      obtain hkey | hkey := List.mem_append.1 hkey
      · exact .inl hkey
      · obtain ⟨rfl, hok⟩ := Prod.mk.inj (List.mem_singleton.1 hkey)
        obtain ⟨rfl, hlength⟩ := ok_keyOf hok
        exact .inr ⟨request, error, hrequest, hlength, htab, rfl⟩

theorem requests_depart (w : Worker E) (t : ℕ) : (w.depart t).requests = w.requests := by
  have hkdf : (w.depart t).kdf.requests = w.kdf.requests := by rw [kdf_depart, requests_settleAll]
  exact hkdf

theorem requests_message (w : Worker E) (t : ℕ) (m : Message) :
    (w.message t m).requests = w.requests := by
  cases m with
  | hello data =>
    simp only [message, sayHello]
    split
    · exact (apart_tellFailure _ t).requests
    · split_ifs
      · exact requests_depart _ t
      · exact (apart_tellFailure _ t).requests
  | depart => exact requests_depart w t
  | kdfResponse id key error =>
    simp only [message, kdfResponse]
    split
    · rfl
    · split
      · rfl
      · split_ifs <;> rfl
  | eraseFailedDevice request => exact (w.apart_eraseFailedDevice t request).requests
  | framePort session => exact (w.apart_framePort t session).requests

/-- Requests stay as they were made, and another is made by a call of `derive` alone. -/
theorem requests_step (w : Worker E) (ev : Event E) : ∃ new,
    (w.step ev).requests = w.requests ++ new ∧
      ∀ request ∈ new, ev = .derive request.operation request.passphrase request.salt := by
  have hsame {w' : Worker E} {P : KdfRequest → Prop} (h : w'.requests = w.requests) :
      ∃ new, w'.requests = w.requests ++ new ∧ ∀ request ∈ new, P request :=
    ⟨[], by simp [h], by simp⟩
  cases ev with
  | derive operation passphrase salt =>
    simp only [step, derive]
    split_ifs
    · exact hsame rfl
    · split
      · exact hsame rfl
      · split_ifs
        · exact hsame rfl
        · exact ⟨_, rfl, fun request hrequest => by rw [List.mem_singleton.1 hrequest]⟩
  | message t m =>
    simp only [step]
    split_ifs
    · exact hsame (w.requests_message t m)
    · exact hsame rfl
  | timeout n =>
    simp only [step, timeout]
    split
    · exact hsame rfl
    · split_ifs <;> exact hsame rfl
  | next t =>
    simp only [step]
    split_ifs <;> exact hsame rfl
  | backup t =>
    simp only [step, backup]
    split_ifs <;> exact hsame rfl
  | connect => exact hsame rfl
  | locked failure => exact hsame (w.apart_locked failure).requests
  | loaded failure => exact hsame (w.apart_loaded failure).requests
  | booted failure => exact hsame (w.apart_booted failure).requests
  | erased failure => exact hsame (w.apart_erased failure).requests
  | push ev => exact hsame (w.apart_push ev).requests
  | poll => exact hsame w.apart_poll.requests
  | answered => exact hsame w.apart_answered.requests
  | stopped => exact hsame w.apart_stopped.requests
  | backedUp => exact hsame rfl

theorem requests_run (w : Worker E) (ls : List (Event E)) : ∃ new,
    (run step w ls).requests = w.requests ++ new ∧
      ∀ request ∈ new, .derive request.operation request.passphrase request.salt ∈ ls := by
  induction ls generalizing w with
  | nil => exact ⟨[], (List.append_nil _).symm, by simp⟩
  | cons ev ls ih =>
    obtain ⟨new, hnew, hmade⟩ := w.requests_step ev
    obtain ⟨later, hlater, hmade'⟩ := ih (w.step ev)
    refine ⟨new ++ later, by rw [run_cons, hlater, hnew, List.append_assoc], fun request h => ?_⟩
    obtain h | h := List.mem_append.1 h
    · exact hmade request h ▸ List.mem_cons_self
    · exact List.mem_cons_of_mem _ (hmade' request h)

theorem key_step {w : Worker E} (h : w.Deriving) {ev : Event E} {n : ℕ} {key : Bytes}
    (hkey : (n, .ok key) ∈ (w.step ev).derived) :
    (n, .ok key) ∈ w.derived ∨ ∃ request error, w.requests[n]? = some request ∧
      key.length = 32 ∧ ev = .message request.tab (.kdfResponse request.id (some key) error) := by
  have hapart {w' : Worker E} (ha : w.Apart w') (hkey : (n, .ok key) ∈ w'.derived) :
      (n, .ok key) ∈ w.derived := ha.derived ▸ hkey
  cases ev with
  | message t m =>
    simp only [step] at hkey
    split_ifs at hkey
    · obtain hold | ⟨request, error, hrequest, hlength, rfl, rfl⟩ := key_message h.kdf hkey
      · exact .inl hold
      · exact .inr ⟨request, error, hrequest, hlength, rfl⟩
    · exact .inl hkey
  | timeout m =>
    left
    simp only [step, timeout] at hkey
    split at hkey
    · exact hkey
    · split_ifs at hkey
      · obtain hkey | hkey := List.mem_append.1 hkey
        · exact hkey
        · simp at hkey
      · exact hkey
  | derive operation passphrase salt =>
    left
    simp only [step, derive] at hkey
    split_ifs at hkey
    · exact hkey
    · split at hkey
      · exact hkey
      · split_ifs at hkey <;> exact hkey
  | next t =>
    simp only [step] at hkey
    split_ifs at hkey <;> exact .inl hkey
  | backup t =>
    simp only [step, backup] at hkey
    split_ifs at hkey <;> exact .inl hkey
  | connect => exact .inl hkey
  | locked failure => exact .inl (hapart (w.apart_locked failure) hkey)
  | loaded failure => exact .inl (hapart (w.apart_loaded failure) hkey)
  | booted failure => exact .inl (hapart (w.apart_booted failure) hkey)
  | erased failure => exact .inl (hapart (w.apart_erased failure) hkey)
  | push ev => exact .inl (hapart (w.apart_push ev) hkey)
  | poll => exact .inl (hapart w.apart_poll hkey)
  | answered => exact .inl (hapart w.apart_answered hkey)
  | stopped => exact .inl (hapart w.apart_stopped hkey)
  | backedUp => exact .inl hkey

theorem key_run (ls : List (Event E)) {n : ℕ} {key : Bytes}
    (hkey : (n, .ok key) ∈ (run step ({} : Worker E) ls).derived) :
    ∃ request error, (run step ({} : Worker E) ls).requests[n]? = some request ∧
      key.length = 32 ∧
      .message request.tab (.kdfResponse request.id (some key) error) ∈ ls := by
  induction ls using List.reverseRecOn with
  | nil => simp at hkey
  | append_singleton ls ev ih =>
    rw [run_append, run_cons, run_nil] at hkey ⊢
    have hkept {n : ℕ} {request : KdfRequest}
        (h : (run step ({} : Worker E) ls).requests[n]? = some request) :
        ((run step ({} : Worker E) ls).step ev).requests[n]? = some request := by
      obtain ⟨new, hnew, -⟩ := requests_step (run step ({} : Worker E) ls) ev
      rw [hnew, List.getElem?_append_left (List.getElem?_eq_some_iff.1 h).1, h]
    obtain hold | ⟨request, error, hrequest, hlength, rfl⟩ := key_step (deriving_run ls) hkey
    · obtain ⟨request, error, hrequest, hlength, hmem⟩ := ih hold
      exact ⟨request, error, hkept hrequest, hlength, List.mem_append_left _ hmem⟩
    · exact ⟨request, error, hkept hrequest, hlength,
        List.mem_append_right _ List.mem_cons_self⟩

end Worker

/-- What is true of the derivations after the events `ls`. -/
structure Worker.Settled (w : Worker E) (ls : List (Event E)) : Prop where
  /-- Every request is settled once, or is not settled and has its timeout armed. -/
  once : (w.derived.map Prod.fst ++ w.kdfTimeouts).Perm (List.range w.requests.length)
  /-- A key is one that the tab posted that had been asked, under the id it was asked with. -/
  keys : ∀ n key, (n, .ok key) ∈ w.derived → ∃ request error, w.requests[n]? = some request ∧
    key.length = 32 ∧ .message request.tab (.kdfResponse request.id (some key) error) ∈ ls
  /-- A tab is asked for what is requested of it, and for nothing else. -/
  asked : ∀ t, w.askedOf t = w.kdf.requestsTo t
  /-- A request is made by a call of the kernel for an operation. -/
  called : ∀ request ∈ w.requests, .derive request.operation request.passphrase request.salt ∈ ls
  /-- It goes to the tab whose operation this is. -/
  owned : ∀ request ∈ w.requests, w.operations[request.operation]? = some request.tab
  /-- What is not settled is waited for, from a tab that said hello and has not departed. -/
  waiting : w.requests.length ≤ 2 ^ 53 → ∀ n ∈ w.kdfTimeouts, ∃ request,
    w.requests[n]? = some request ∧ (request.id, n) ∈ w.kdfWaiters ∧ w.isHelloed request.tab

/-- In every run, every derivation that is asked for is settled once or has its timeout armed; a key
comes from the tab that was asked; and a passphrase is seen by the tab alone that made the call. -/
theorem derivations_settled (ls : List (Event E)) :
    (run Worker.step ({} : Worker E) ls).Settled ls := by
  have h := Worker.deriving_run ls
  obtain ⟨new, hnew, hcalled⟩ := ({} : Worker E).requests_run ls
  refine ⟨h.kdf.once, fun n key hkey => Worker.key_run ls hkey, h.asked,
    fun request hrequest => hcalled request ?_, h.kdf.owned, fun hfew n hn => ?_⟩
  · rw [hnew] at hrequest
    exact hrequest
  obtain ⟨⟨id, n⟩, hwaiter, rfl⟩ := List.mem_map.1 (h.kdf.all hfew n hn)
  obtain ⟨request, hrequest, hhelloed⟩ := h.helloed _ hwaiter
  obtain ⟨-, request', hrequest', rfl⟩ := h.kdf.waiting _ hwaiter
  obtain rfl : request = request' := Option.some.inj (hrequest.symm.trans hrequest')
  exact ⟨request, hrequest, hwaiter, hhelloed⟩

end Polyvisor.SharedWorker
