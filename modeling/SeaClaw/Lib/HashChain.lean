import Mathlib.Data.List.Nodup
import Mathlib.Data.Set.Function

/-!
# Authentication chains

Each message is authenticated together with the tag of the one before it. Some messages
turn the key: the next one is authenticated with the next key of the ring. A chain made
in this way is accepted under the ring of all keys used; and with one key, what is
accepted is a prefix of what was made, if tags cannot be forged or made twice.
-/

namespace SeaClaw.Lib.HashChain

variable {K D M : Type*} (mac : K → D → M → D) (turns : M → Prop) [DecidablePred turns]

/-- The ring after a turn of the key; the last key stays. -/
def next : List K → List K
  | _ :: k :: ring => k :: ring
  | ring => ring

/-- The entries are those of a chain from `d` under the keys of the ring. -/
def Accepted : List K → D → List (M × D) → Prop
  | _, _, [] => True
  | ring, d, (m, t) :: es =>
    (∃ k, ring.head? = some k ∧ t = mac k d m) ∧
      Accepted (if turns m then next ring else ring) t es

/-- The ring behind the entries. -/
def ringAfter : List K → List (M × D) → List K
  | ring, [] => ring
  | ring, (m, _) :: es => ringAfter (if turns m then next ring else ring) es

/-- The tag of the last entry, or `d`. -/
def headAfter : D → List (M × D) → D
  | d, [] => d
  | _, (_, t) :: es => headAfter t es

variable {mac turns}

theorem accepted_append {ring : List K} {d : D} {es fs : List (M × D)} :
    Accepted mac turns ring d (es ++ fs) ↔ Accepted mac turns ring d es ∧
      Accepted mac turns (ringAfter turns ring es) (headAfter d es) fs := by
  induction es generalizing ring d with
  | nil => simp [Accepted, ringAfter, headAfter]
  | cons e es ih =>
    obtain ⟨m, t⟩ := e
    simp only [List.cons_append, Accepted, ringAfter, headAfter, ih, and_assoc]

theorem ringAfter_append (ring : List K) (es fs : List (M × D)) :
    ringAfter turns ring (es ++ fs) = ringAfter turns (ringAfter turns ring es) fs := by
  induction es generalizing ring with
  | nil => rfl
  | cons e es ih => exact ih _

theorem headAfter_append (d : D) (es fs : List (M × D)) :
    headAfter d (es ++ fs) = headAfter (headAfter d es) fs := by
  induction es generalizing d with
  | nil => rfl
  | cons e es ih => exact ih _

/-! ## Making a chain -/

variable (mac turns) in
/-- The past keys, the entries, the current key and the last tag of who makes a chain. A
turn may keep the key. -/
inductive Signed (d : D) : List K → List (M × D) → K → D → Prop
  | start (k : K) : Signed d [] [] k d
  | sign {ks es k t} (m : M) (h : Signed d ks es k t) (hm : ¬ turns m) :
      Signed d ks (es ++ [(m, mac k t m)]) k (mac k t m)
  | turn {ks es k t} (m : M) (k' : K) (h : Signed d ks es k t) (hm : turns m) :
      Signed d (ks ++ [k]) (es ++ [(m, mac k t m)]) k' (mac k t m)

/-- A chain is accepted under its keys, whatever keys follow them. -/
theorem Signed.spec {d t : D} {ks : List K} {es : List (M × D)} {k : K}
    (h : Signed mac turns d ks es k t) (ring : List K) :
    Accepted mac turns (ks ++ k :: ring) d es ∧ ringAfter turns (ks ++ k :: ring) es = k :: ring ∧
      headAfter d es = t := by
  induction h generalizing ring with
  | start k => exact ⟨trivial, rfl, rfl⟩
  | sign m h hm ih =>
    obtain ⟨hacc, hring, hhead⟩ := ih ring
    refine ⟨?_, ?_, ?_⟩
    · rw [accepted_append, hring, hhead]
      exact ⟨hacc, ⟨_, rfl, rfl⟩, trivial⟩
    · rw [ringAfter_append, hring, ringAfter, if_neg hm, ringAfter]
    · rw [headAfter_append]
      rfl
  | turn m k' h hm ih =>
    obtain ⟨hacc, hring, hhead⟩ := ih (k' :: ring)
    rw [List.append_assoc, List.singleton_append]
    refine ⟨?_, ?_, ?_⟩
    · rw [accepted_append, hring, hhead]
      exact ⟨hacc, ⟨_, rfl, rfl⟩, trivial⟩
    · rw [ringAfter_append, hring, ringAfter, if_pos hm, ringAfter]
      rfl
    · rw [headAfter_append]
      rfl

theorem Signed.accepted {d t : D} {ks : List K} {es : List (M × D)} {k : K}
    (h : Signed mac turns d ks es k t) : Accepted mac turns (ks ++ [k]) d es := (h.spec []).1

/-! ## One key -/

section OneKey

variable (mac) (k : K)

/-- The chain of the messages from `d`. -/
def chain : D → List M → List (M × D)
  | _, [] => []
  | d, m :: ms => (m, mac k d m) :: chain (mac k d m) ms

/-- What is authenticated: each message with the tag before it. -/
def links : D → List M → List (D × M)
  | _, [] => []
  | d, m :: ms => (d, m) :: links (mac k d m) ms

/-- The tags of the chain. -/
def tags : D → List M → List D
  | _, [] => []
  | d, m :: ms => mac k d m :: tags (mac k d m) ms

variable {mac k}

theorem fst_mem_of_mem_links {d : D} {ms : List M} {x : D × M} (h : x ∈ links mac k d ms) :
    x.1 ∈ d :: tags mac k d ms := by
  induction ms generalizing d with
  | nil => simp [links] at h
  | cons m ms ih =>
    rcases List.mem_cons.mp h with rfl | h
    · exact List.mem_cons_self
    · exact List.mem_cons_of_mem _ (ih h)

theorem exists_link_of_mem_tags {d t : D} {ms : List M} (h : t ∈ tags mac k d ms) :
    ∃ x ∈ links mac k d ms, mac k x.1 x.2 = t := by
  induction ms generalizing d with
  | nil => simp [tags] at h
  | cons m ms ih =>
    rcases List.mem_cons.mp h with rfl | h
    · exact ⟨(d, m), List.mem_cons_self, rfl⟩
    · obtain ⟨x, hx, ht⟩ := ih h
      exact ⟨x, List.mem_cons_of_mem _ hx, ht⟩

/-- If no tag is made for two inputs, and none is the start, the tags are distinct. -/
theorem nodup_tags {d : D} {ms : List M}
    (hinj : Set.InjOn (fun x : D × M => mac k x.1 x.2) {x | x ∈ links mac k d ms})
    (hd : d ∉ tags mac k d ms) : (d :: tags mac k d ms).Nodup := by
  induction ms generalizing d with
  | nil => simp [tags]
  | cons m ms ih =>
    have hinj' : Set.InjOn (fun x : D × M => mac k x.1 x.2)
        {x | x ∈ links mac k (mac k d m) ms} := hinj.mono fun x hx => List.mem_cons_of_mem _ hx
    refine List.nodup_cons.mpr ⟨hd, ih hinj' fun hmem => hd ?_⟩
    -- the repeated tag stands for the first link, so the start comes up again
    obtain ⟨x, hx, ht⟩ := exists_link_of_mem_tags hmem
    have heq : x = (d, m) :=
      hinj (List.mem_cons_of_mem _ hx) (List.mem_cons_self (a := (d, m))) ht
    have hfst := fst_mem_of_mem_links hx
    rw [heq] at hfst
    exact hfst

/-- Entries accepted at the head `d` of what is left of a chain, where each is authentic. -/
theorem Accepted.prefix_of_links {es : List (M × D)} {d : D} {ms : List M}
    {p : List (D × M)} (hnodup : (p.map Prod.fst ++ d :: tags mac k d ms).Nodup)
    (hacc : Accepted mac turns [k] d es)
    (hforge : ∀ x ∈ links mac k d (es.map Prod.fst), x ∈ p ++ links mac k d ms) :
    es <+: chain mac k d ms := by
  induction es generalizing d ms p with
  | nil => exact List.nil_prefix
  | cons e es ih =>
    obtain ⟨m, t⟩ := e
    obtain ⟨⟨k', hk, ht⟩, hrest⟩ := hacc
    cases hk
    rw [show (if turns m then next [k] else [k]) = [k] from ite_self _] at hrest
    obtain ⟨-, hnew, hold⟩ := List.nodup_append.mp hnodup
    have hlink := hforge (d, m) List.mem_cons_self
    rcases List.mem_append.mp hlink with hpast | hlink
    · exact absurd rfl (hold d (List.mem_map.mpr ⟨_, hpast, rfl⟩) d List.mem_cons_self)
    · cases ms with
      | nil => simp [links] at hlink
      | cons m' ms =>
        rcases List.mem_cons.mp hlink with heq | hlink
        · cases heq
          subst ht
          refine List.cons_prefix_cons.mpr ⟨rfl, ih (p := p ++ [(d, m)]) ?_ hrest ?_⟩
          · simpa [tags] using hnodup
          · intro x hx
            have hmem := hforge x (List.mem_cons_of_mem _ hx)
            simpa [links] using hmem
        · exact absurd (fst_mem_of_mem_links hlink) (List.nodup_cons.mp hnew).1

/-- With one key, accepted authentic entries are a prefix of the chain. -/
theorem Accepted.prefix_chain {es : List (M × D)} {d : D} {ms : List M}
    (hacc : Accepted mac turns [k] d es)
    (hinj : Set.InjOn (fun x : D × M => mac k x.1 x.2) {x | x ∈ links mac k d ms})
    (hd : d ∉ tags mac k d ms)
    (hforge : ∀ x ∈ links mac k d (es.map Prod.fst), x ∈ links mac k d ms) :
    es <+: chain mac k d ms :=
  hacc.prefix_of_links (p := []) (nodup_tags hinj hd) hforge

end OneKey

end SeaClaw.Lib.HashChain
