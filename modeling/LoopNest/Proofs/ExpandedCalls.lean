import LoopNest.Proofs.DistinctLabels
import LoopNest.Proofs.PendingLoops
import LoopNest.Proofs.PrivateCopies
import LoopNest.Proofs.TypedRuns

/-! # Expanded calls

  A program whose calls have all been expanded leaves in its buffers what the program with calls
  leaves there (`Restructure.expandAll_preserves`).

  * **One place**: when one statement follows another, a program with the one in the place of the
    other follows the program (`Stmt.Replaces.follows`).
  * **One expansion**: the calls of the copy are left to be expanded, and the other calls
    (`Restructure.Waiting.expand`, `Restructure.Pending.expand`). What the program named it still names
    (`Restructure.Waiting.lastingNames_subset`).
  * **All expansions**: step by step the program goes on to leave what the program with calls leaves
    (`Restructure.Expands.follows_steady`, `Restructure.Expands.follows`). In the end there are no calls
    (`Restructure.Expands.pending`), and it just runs (`Stmt.runOn_eq_change`).

  The buffers of a function hold nothing when it is entered, and reading an element without content
  has no answer. So a statement about all runs that have an answer is one about runs that read
  nothing of their own before they have written it. -/

namespace LoopNest

namespace Stmt

/-! ## One place -/

/-- Everything stands for itself among some names, and one statement stands for another one. -/
def apartFrom (names : List String) (u v : Stmt) : Dictionary where
  expr _ e e' := e = e' ∧ ∀ b ∈ e.buffers, b ∈ names
  iter := Eq
  buffer b b' := b = b' ∧ b ∈ names
  stmt t t' := t = u ∧ t' = v

/-- Two memories agree on some buffers. -/
def AgreeOn (names : List String) (m m' : Memory) : Prop := ∀ b ∈ names, m' b = m b

variable {names : List String} {u v t t' : Stmt}

theorem sound_apartFrom (names : List String) (u v : Stmt) :
    (apartFrom names u v).Sound .whole .whole (AgreeOn names) fun _ env env' => env = env' where
  value := by
    rintro known env _ m m' e _ w rfl hAgree ⟨rfl, hBuffers⟩ hValue
    rw [← Expr.valueWith?_reference .blank] at hValue ⊢
    rw [← hValue]
    exact Expr.valueWith?_congr_names (fun _ _ => rfl) fun b hb => hAgree b (hBuffers b hb)
  iterate := by
    rintro known env _ _ _ w rfl rfl
    rfl
  seen := by
    rintro m m' b _ is w hAgree ⟨rfl, hb⟩ hSeen
    rw [View.whole_seen, hAgree b hb]
    exact hSeen
  exchange := by
    rintro m m' b _ cells hAgree ⟨rfl, hb⟩ c hc
    by_cases hName : c = b
    · subst hName
      simp
    · simp [hName, hAgree c hc]
  put := by
    rintro m m' b _ is w hAgree ⟨rfl, hb⟩ c hc
    by_cases hName : c = b
    · subst hName
      funext js
      simp [Memory.put, hAgree c hc]
    · simp [hName, hAgree c hc]
  restore := by
    rintro old old' m m' b _ hOld hAgree ⟨rfl, hb⟩ c hc
    by_cases hName : c = b
    · subst hName
      simp [hOld c hc]
    · simp [hName, hAgree c hc]

theorem usedNames_subset_child (hu : u ∈ t.children) : u.usedNames ⊆ t.usedNames :=
  usedNames_subset (mem_nodes_of_child hu (self_mem_nodes u))

theorem copyOf_self_apartFrom (h : t.usedNames ⊆ names) (known : List String) :
    CopyOf (apartFrom names u v) known t t :=
  .self t known
    (fun _ w hw e he => ⟨rfl, fun _ hb => h (mem_usedNames.mpr ⟨w, hw, .inr ⟨e, he, .inr hb⟩⟩)⟩)
    fun w hw _ hx => ⟨rfl, rfl, h (mem_usedNames.mpr ⟨w, hw, .inl hx⟩)⟩

/-- One statement in the place of another. -/
theorem Replaces.copyOf (h : Replaces u v t t') (hNames : t.usedNames ⊆ names) :
    ∀ known, CopyOf (apartFrom names u v) known t t' := by
  have hExpr : ∀ {w : Stmt} {e : Expr}, w.usedNames ⊆ names → e ∈ w.exprs →
      ∀ known, (apartFrom names u v).expr known e e := fun {w e} hw he _ =>
    ⟨rfl, fun b hb => hw (mem_usedNames.mpr ⟨w, self_mem_nodes w, .inr ⟨e, he, .inr hb⟩⟩)⟩
  have hBelow : ∀ {w c : Stmt}, w.usedNames ⊆ names → c ∈ w.children → c.usedNames ⊆ names :=
    fun hw hc => List.Subset.trans (usedNames_subset_child hc) hw
  induction h with
  | here => exact fun known => .given ⟨rfl, rfl⟩
  | decl s n b _ ih =>
    refine fun known => .decl ⟨rfl, hNames ?_⟩ rfl (ih (hBelow hNames (by simp [children])) known)
    exact mem_usedNames.mpr ⟨_, self_mem_nodes _, .inl (by simp [ownNames])⟩
  | loop s head _ ih =>
    exact fun known => .loop rfl (hExpr hNames (by simp [exprs]) known)
      (hExpr hNames (by simp [exprs]) known) (ih (hBelow hNames (by simp [children])) _)
  | guard s e _ ih =>
    exact fun known => .guard (hExpr hNames (by simp [exprs]) known)
      (ih (hBelow hNames (by simp [children])) known)
  | yes s e no _ ih =>
    exact fun known => .branch (hExpr hNames (by simp [exprs]) known)
      (ih (hBelow hNames (by simp [children])) known)
      (copyOf_self_apartFrom (hBelow hNames (by simp [children])) known)
  | no s e yes _ ih =>
    exact fun known => .branch (hExpr hNames (by simp [exprs]) known)
      (copyOf_self_apartFrom (hBelow hNames (by simp [children])) known)
      (ih (hBelow hNames (by simp [children])) known)
  | block s before after _ ih =>
    have hOthers : ∀ {ts : List Stmt} known, (∀ w ∈ ts, w ∈ before ++ after) →
        List.Forall₂ (CopyOf (apartFrom names u v) known) ts ts := fun known hts =>
      List.forall₂_same.mpr fun w hw => copyOf_self_apartFrom (hBelow hNames (by
        rcases List.mem_append.mp (hts w hw) with h | h <;> simp [children, h])) known
    exact fun known => .block (List.rel_append (hOthers known (by simp_all))
      (.cons (ih (hBelow hNames (by simp [children])) known) (hOthers known (by simp_all))))

/-- **One place**: a program with a statement in the place of one that it follows. -/
theorem Replaces.follows (h : Replaces u v t t') {r : Registry} {depth : Nat}
    (hPair : ∀ env, Transition.Follows (AgreeOn t.usedNames) (u.execute r .blank depth .whole env)
      (v.execute r .blank depth .whole env)) (env : Env) :
    Transition.Follows (AgreeOn t.usedNames) (t.execute r .blank depth .whole env)
      (t'.execute r .blank depth .whole env) := by
  have hSound := sound_apartFrom t.usedNames u v
  refine (h.copyOf (List.Subset.refl _) []).simulates hSound
    (fun {_ _ _} f {_ _} hEnv hArgs => enter_simulates r (Nat.le_refl depth) hSound f hEnv hArgs)
    (fun {_ env env' _ _} hEnv hGiven => ?_) rfl
  obtain ⟨rfl, rfl⟩ := hGiven
  obtain rfl := hEnv
  exact hPair env

/-! ## What an update leaves -/

/-- A statement that is not below the updated one is still there. -/
theorem mem_update_of_mem {p : Nat} {w x : Stmt} : ∀ t : Stmt,
    (∀ y ∈ t.nodes, y.id = p → y.children = []) → x ∈ t.nodes →
    (x.update p fun _ => w) ∈ (t.update p fun _ => w).nodes := by
  refine children_ind fun t ih hLeaf hMem => ?_
  rw [nodes_eq_cons, List.mem_cons] at hMem
  rcases hMem with rfl | hMem
  · exact self_mem_nodes _
  · by_cases hp : t.id = p
    · rw [inside, hLeaf t (self_mem_nodes t) hp] at hMem
      cases hMem
    · obtain ⟨c, hc, hMem⟩ := List.mem_flatMap.mp hMem
      have hBelow := ih c hc (fun y hy => hLeaf y (mem_nodes_of_child hc hy)) hMem
      refine mem_nodes_of_child ?_ hBelow
      rw [children_update hp]
      exact List.mem_map_of_mem hc

theorem mem_bufferNames {t : Stmt} {b : String} : b ∈ t.bufferNames ↔ ∃ u ∈ t.nodes, b ∈ u.mentions :=
  List.mem_flatMap

theorem ownBuffers_subset (t : Stmt) : t.ownBuffers ⊆ t.ownNames := by
  intro b hb
  cases t with
  | decl s n buffer body => exact hb
  | store s n is e => exact hb
  | call s f args =>
    obtain ⟨arg, hArg, hBuffer⟩ := List.mem_filterMap.mp hb
    cases arg with
    | buffer a =>
      cases hBuffer
      exact mem_ownNames_call hArg
    | value e => cases hBuffer
  | _ => cases hb

theorem bufferNames_subset (t : Stmt) : t.bufferNames ⊆ t.usedNames := by
  intro b hb
  obtain ⟨u, hu, hb⟩ := mem_bufferNames.mp hb
  rcases List.mem_append.mp hb with hb | hb
  · exact mem_usedNames.mpr ⟨u, hu, .inl (ownBuffers_subset u hb)⟩
  · obtain ⟨e, he, hb⟩ := List.mem_flatMap.mp hb
    exact mem_usedNames.mpr ⟨u, hu, .inr ⟨e, he, .inr hb⟩⟩

theorem mem_lastingNames {t : Stmt} {b : String} :
    b ∈ t.lastingNames ↔ ∃ u ∈ t.nodes, b ∈ u.lasting :=
  List.mem_flatMap

theorem lasting_subset (t : Stmt) : t.lasting ⊆ t.mentions := by
  cases t with
  | call s f args => exact List.subset_append_left _ _
  | _ => exact List.Subset.refl _

theorem lastingNames_subset (t : Stmt) : t.lastingNames ⊆ t.bufferNames := by
  intro b hb
  obtain ⟨u, hu, hb⟩ := mem_lastingNames.mp hb
  exact mem_bufferNames.mpr ⟨u, hu, lasting_subset u hb⟩

theorem lasting_update {p : Nat} {f : Stmt → Stmt} {t : Stmt} (h : t.id ≠ p) :
    (t.update p f).lasting = t.lasting := by
  rw [update_eq, if_neg h]
  cases t <;> rfl

end Stmt

namespace Restructure

open LoopNest.Stmt (AgreeOn)

/-! ## One expansion -/

/-- A draft with calls that wait to be expanded.

    * **ids**, **old**: its statements have different numbers, and these were used before;
    * **different**, **mem**: those are calls in it, each one once. -/
structure Waiting (d : Draft) (calls : List Stmt) : Prop where
  ids : d.tree.ids.Nodup
  old : ∀ i ∈ d.tree.ids, i < d.next
  different : (calls.map Stmt.id).Nodup
  mem : ∀ u ∈ calls, u ∈ d.tree.nodes ∧ u.isCall = true

/-- A draft all calls of which wait to be expanded. -/
structure Pending (d : Draft) (calls : List Stmt) : Prop extends Waiting d calls where
  all : ∀ u ∈ d.tree.nodes, u.isCall = true → u ∈ calls

theorem mem_calls {t u : Stmt} : u ∈ t.calls ↔ u ∈ t.nodes ∧ u.isCall = true := List.mem_filter

theorem nodup_calls {t : Stmt} (h : t.ids.Nodup) : (t.calls.map Stmt.id).Nodup :=
  h.sublist (List.filter_sublist.map _)

/-- Any calls of a numbered program may wait. -/
theorem waiting_number {t : Stmt} {calls : List Stmt} (h : calls.Sublist t.number.calls) :
    Waiting (Draft.of t.number) calls where
  ids := Stmt.nodup_ids_number t
  old := Stmt.lt_size_number
  different := (nodup_calls (Stmt.nodup_ids_number t)).sublist (h.map _)
  mem _ hu := mem_calls.mp (h.subset hu)

theorem pending_number (t : Stmt) : Pending (Draft.of t.number) t.number.calls where
  toWaiting := waiting_number (List.Sublist.refl _)
  all _ hu hCall := mem_calls.mpr ⟨hu, hCall⟩

/-- An update with something else than a call leaves a call as it is. -/
theorem update_call {u : Stmt} (hCall : u.isCall = true) {p : Nat} {f : Stmt → Stmt} (h : u.id ≠ p) :
    u.update p f = u := by
  rw [Stmt.update_eq, if_neg h]
  cases u <;> first | rfl | cases hCall

theorem isCall_update {u : Stmt} {p : Nat} {f : Stmt → Stmt} (h : u.id ≠ p) :
    (u.update p f).isCall = u.isCall := by
  rw [Stmt.update_eq, if_neg h]
  cases u <;> rfl

section pending

variable {d : Draft} {site : Site} {callee : String} {args : List Arg} {calls : List Stmt}

theorem Waiting.head_mem (h : Waiting d (.call site callee args :: calls)) :
    .call site callee args ∈ d.tree.nodes := (h.mem _ List.mem_cons_self).1

/-- The call is the only statement with its number. -/
theorem Waiting.eq_head (h : Waiting d (.call site callee args :: calls)) {u : Stmt}
    (hu : u ∈ d.tree.nodes) (hId : u.id = site.id) : u = .call site callee args :=
  List.inj_on_of_nodup_map h.ids hu h.head_mem hId

theorem Waiting.mem_update (h : Waiting d (.call site callee args :: calls)) {u w : Stmt}
    (hu : u ∈ d.tree.nodes) :
    (u.update site.id fun _ => w) ∈ (d.tree.update site.id fun _ => w).nodes := by
  refine Stmt.mem_update_of_mem d.tree (fun y hy hSame => ?_) hu
  rw [h.eq_head hy hSame]
  rfl

theorem Waiting.replaces (h : Waiting d (.call site callee args :: calls)) (w : Stmt) :
    Stmt.Replaces (.call site callee args) w d.tree (d.tree.update site.id fun _ => w) :=
  Stmt.replaces_update d.tree h.ids h.head_mem

theorem Pending.replaces (h : Pending d (.call site callee args :: calls)) (w : Stmt) :
    Stmt.Replaces (.call site callee args) w d.tree (d.tree.update site.id fun _ => w) :=
  h.toWaiting.replaces w

/-- The other calls have other numbers. -/
theorem Waiting.id_ne (h : Waiting d (.call site callee args :: calls)) :
    ∀ u ∈ calls, u.id ≠ site.id := by
  rintro u hu hEq
  exact (List.nodup_cons.mp h.different).1 (List.mem_map.mpr ⟨u, hu, hEq⟩)

/-- A call that waits is still there after an expansion. -/
theorem Waiting.mem_after (h : Waiting d (.call site callee args :: calls)) {u : Stmt} (hu : u ∈ calls)
    (w : Stmt) : u ∈ (d.tree.update site.id fun _ => w).nodes := by
  obtain ⟨hMem, hCall⟩ := h.mem u (List.mem_cons_of_mem _ hu)
  have hLeft := h.mem_update (w := w) hMem
  rwa [update_call hCall (h.id_ne u hu)] at hLeft

/-- **What waits**: after an expansion the calls of the copy and the other calls wait. -/
theorem Waiting.expand (h : Waiting d (.call site callee args :: calls)) {copy : Stmt} {next : Nat}
    (hNext : d.next ≤ next) (hIds : copy.ids.Nodup) (hBounds : ∀ i ∈ copy.ids, d.next ≤ i ∧ i < next) :
    Waiting ⟨d.tree.update site.id fun _ => copy, next⟩ (copy.calls ++ calls) := by
  have hOthers : ∀ u ∈ calls, u ∈ d.tree.nodes ∧ u.isCall = true :=
    fun u hu => h.mem u (List.mem_cons_of_mem _ hu)
  refine ⟨Stmt.nodup_ids_update h.ids h.old h.head_mem hIds fun i hi => .inr (hBounds i hi).1,
    fun i hi => ?_, ?_, fun u hu => ?_⟩
  · rcases Stmt.mem_ids_update hi with hi | hi
    · exact (hBounds i hi).2
    · exact Nat.lt_of_lt_of_le (h.old i hi) hNext
  · rw [List.map_append, List.nodup_append]
    refine ⟨nodup_calls hIds, (List.nodup_cons.mp h.different).2, fun i hi j hj => ?_⟩
    obtain ⟨u, hu, rfl⟩ := List.mem_map.mp hi
    obtain ⟨w, hw, rfl⟩ := List.mem_map.mp hj
    have hNew := (hBounds _ (List.mem_map_of_mem (mem_calls.mp hu).1)).1
    have hOld := h.old _ (List.mem_map_of_mem (hOthers w hw).1)
    omega
  · rcases List.mem_append.mp hu with hu | hu
    · obtain ⟨hu, hCall⟩ := mem_calls.mp hu
      exact ⟨Stmt.mem_nodes_trans hu (h.replaces copy).symm.mem, hCall⟩
    · exact ⟨h.mem_after hu copy, (hOthers u hu).2⟩

/-- **What is left**: after an expansion the calls of the copy and the other calls are left. -/
theorem Pending.expand (h : Pending d (.call site callee args :: calls)) {copy : Stmt} {next : Nat}
    (hNext : d.next ≤ next) (hIds : copy.ids.Nodup) (hBounds : ∀ i ∈ copy.ids, d.next ≤ i ∧ i < next) :
    Pending ⟨d.tree.update site.id fun _ => copy, next⟩ (copy.calls ++ calls) := by
  refine ⟨h.toWaiting.expand hNext hIds hBounds, fun u hu hCall => ?_⟩
  rw [List.mem_append]
  rcases Stmt.mem_nodes_update d.tree hu with hNew | ⟨y, hy, hId, rfl⟩
  · exact .inl (mem_calls.mpr ⟨hNew, hCall⟩)
  · rw [isCall_update hId] at hCall
    rw [update_call hCall hId]
    rcases List.mem_cons.mp (h.all y hy hCall) with rfl | hMem
    · exact absurd rfl hId
    · exact .inr hMem

/-- **Named buffers**: what a program names it still names after an expansion. The buffers that the
    call passes are declared around it. -/
theorem Waiting.lastingNames_subset (h : Waiting d (.call site callee args :: calls))
    (hPassed : ∀ a, .buffer a ∈ args → (d.tree.bufferAt? a site.id).isSome) (copy : Stmt) :
    d.tree.lastingNames ⊆ (d.tree.update site.id fun _ => copy).lastingNames := by
  have hStays : ∀ {u : Stmt} {b : String}, u ∈ d.tree.nodes → u.id ≠ site.id → b ∈ u.lasting →
      b ∈ (d.tree.update site.id fun _ => copy).lastingNames := by
    intro u b hu hId hb
    exact Stmt.mem_lastingNames.mpr ⟨_, h.mem_update hu, by rwa [Stmt.lasting_update hId]⟩
  intro b hb
  obtain ⟨u, hu, hb⟩ := Stmt.mem_lastingNames.mp hb
  by_cases hId : u.id = site.id
  · obtain rfl := h.eq_head hu hId
    obtain ⟨arg, hArg, hBuffer⟩ := List.mem_filterMap.mp hb
    cases arg with
    | value e => cases hBuffer
    | buffer a =>
      cases hBuffer
      obtain ⟨host, hHost⟩ := Option.isSome_iff_exists.mp (hPassed b hArg)
      obtain ⟨s, body, hDecl, -⟩ := Stmt.exists_decl_of_bufferAt? d.tree h.ids hHost
      refine hStays hDecl (fun hSame => ?_) (List.mem_append_left _ List.mem_cons_self)
      cases h.eq_head hDecl hSame
  · exact hStays hu hId hb

end pending

/-! ## All expansions -/

/-- What expanding the calls of a list, one after the other, makes of a draft, and how. -/
inductive Expands (r : Registry) : Draft → List Stmt → List Expansion → Draft → Prop where
  | done (d : Draft) : Expands r d [] [] d
  | call {d d' : Draft} {site : Site} {callee : String} {args : List Arg} {calls : List Stmt}
      {f : Function} {b : Binding} {copy : Stmt} {next : Nat} {log : List Expansion}
      (function : r.get? callee = some f) (count : args.length = f.params.length)
      (fit : bindArgs (fun name => d.tree.bufferAt? name site.id) callee f.body.written {} f.params
        args = .ok b)
      (copied : privateCopy d.tree d.next f b (site.label.getD callee) = (copy, next))
      (rest : Expands r ⟨d.tree.update site.id fun _ => copy, next⟩ (copy.calls ++ calls) log d') :
      Expands r d (.call site callee args :: calls) (⟨f, args⟩ :: log) d'

/-- What is done for the calls of a list in turn is what is done for each. -/
theorem exists_expands_of_foldlM {r : Registry} (step : Draft → Stmt → Outcome (Draft × Nat))
    (hStep : ∀ {d call q}, step d call = .ok q → ∀ {calls log last}, Expands r q.1 calls log last →
      ∃ log', Expands r d (call :: calls) log' last ∧ log'.length = q.2 + log.length) :
    ∀ {nested : List Stmt} {p q : Draft × Nat},
      nested.foldlM (fun p call => do
        let q ← step p.1 call
        return (q.1, p.2 + q.2)) p = .ok q →
      ∀ {calls log last}, Expands r q.1 calls log last →
        ∃ log', Expands r p.1 (nested ++ calls) log' last ∧ p.2 + log'.length = q.2 + log.length := by
  intro nested
  induction nested with
  | nil =>
    intro p q hFold calls log last hExpands
    cases hFold
    exact ⟨log, hExpands, rfl⟩
  | cons call nested ih =>
    intro p q hFold calls log last hExpands
    rw [List.foldlM_cons] at hFold
    obtain ⟨between, hFirst, hRest⟩ := Outcome.bind_eq_ok.mp hFold
    obtain ⟨after, hCall, hBetween⟩ := Outcome.bind_eq_ok.mp hFirst
    cases hBetween
    obtain ⟨log₁, hExpands₁, hLength₁⟩ := ih hRest hExpands
    obtain ⟨log₂, hExpands₂, hLength₂⟩ := hStep hCall hExpands₁
    refine ⟨log₂, hExpands₂, ?_⟩
    dsimp only at hLength₁
    omega

/-- Expanding a call makes expansions, as many as it says. -/
theorem exists_expands_of_expand {r : Registry} : ∀ {depth : Nat} {chain : List String} {d : Draft}
    {call : Stmt} {q : Draft × Nat}, expand r depth chain d call = .ok q →
    ∀ {calls log last}, Expands r q.1 calls log last →
      ∃ log', Expands r d (call :: calls) log' last ∧ log'.length = q.2 + log.length := by
  intro depth
  induction depth with
  | zero =>
    intro chain d call q h
    obtain ⟨_, _, _, _, _, _, _, hDepth, _⟩ := expand_cases h
    cases hDepth
  | succ depth ih =>
    intro chain d call q h calls log last hExpands
    obtain ⟨site, callee, args, depth', f, b, rfl, hDepth, -, hFunction, hCount, hBind, hRest⟩ :=
      expand_cases h
    cases hDepth
    obtain ⟨log', hNested, hLength⟩ := exists_expands_of_foldlM
      (expand r depth (chain ++ [callee])) (fun hCall => ih hCall) hRest hExpands
    refine ⟨⟨f, args⟩ :: log', .call hFunction hCount hBind rfl hNested, ?_⟩
    rw [List.length_cons]
    omega

/-- **Expansions**: a program whose calls were expanded came about by expansions, as many as were
    counted. -/
theorem exists_expands {r : Registry} {d d' : Draft} {n : Nat} (h : expandAll r d = .ok (d', n)) :
    ∃ log, Expands r d d.tree.calls log d' ∧ log.length = n := by
  obtain ⟨log, hExpands, hLength⟩ := exists_expands_of_foldlM (expandCall r)
    (fun hCall => exists_expands_of_expand hCall) h (.done d')
  rw [List.append_nil] at hExpands
  exact ⟨log, hExpands, by simpa using hLength⟩

theorem mem_aliases {f : Function} {args : List Arg} {a : String × String}
    (h : a ∈ f.aliases args) : .buffer a.2 ∈ args := by
  obtain ⟨⟨p, arg⟩, hPair, hBuffer⟩ := List.mem_filterMap.mp (List.mem_reverse.mp h)
  cases arg with
  | buffer b =>
    cases hBuffer
    exact (List.of_mem_zip hPair).2
  | value e => cases hBuffer

theorem mem_passed {f : Function} {args : List Arg} {v : String × Expr} (h : v ∈ f.passed args) :
    .value v.2 ∈ args := by
  obtain ⟨⟨p, arg⟩, hPair, hValue⟩ := List.mem_filterMap.mp h
  cases arg with
  | buffer b => cases hValue
  | value e =>
    cases hValue
    exact (List.of_mem_zip hPair).2

/-- Every value argument is passed, when there are as many arguments as parameters. -/
theorem exists_passed {f : Function} {args : List Arg} (hCount : args.length = f.params.length)
    {e : Expr} (h : .value e ∈ args) : ∃ v ∈ f.passed args, v.2 = e := by
  obtain ⟨i, hi, hArg⟩ := List.getElem_of_mem h
  refine ⟨(f.params[i].name, e), List.mem_filterMap.mpr ⟨(f.params[i], .value e), ?_, rfl⟩, rfl⟩
  have hZip : i < (f.params.zip args).length := by
    rw [List.length_zip]
    omega
  have hPair : (f.params.zip args)[i] = (f.params[i], .value e) := by
    rw [List.getElem_zip, hArg]
  exact hPair ▸ List.getElem_mem hZip

variable {r : Registry} {d d' : Draft} {calls : List Stmt} {log : List Expansion}

/-- **Expansions of pending calls** leave no call pending. -/
theorem Expands.pending (h : Expands r d calls log d') (hPending : Pending d calls) :
    Pending d' [] := by
  induction h with
  | done d => exact hPending
  | @call d d' site callee args calls f b copy next log _ _ _ hCopied _ ih =>
    have hSpec := privateCopy_spec d.tree d.next f b (site.label.getD callee)
    rw [hCopied] at hSpec
    obtain ⟨hNext, hIds, hBounds, -, -⟩ := hSpec
    exact ih (hPending.expand hNext hIds hBounds)

theorem Pending.no_call (h : Pending d []) : ∀ u ∈ d.tree.nodes, u.isCall = false := by
  intro u hu
  rw [← Bool.not_eq_true]
  exact fun hCall => absurd (h.all u hu hCall) List.not_mem_nil

/-- **Expansions follow the calls**: when the arguments keep their values, the program leaves after
    all expansions what the program with calls leaves in the buffers that last. -/
theorem Expands.follows_steady (h : Expands r d calls log d') (hWaiting : Waiting d calls)
    (hSteady : ∀ e ∈ log, e.Steady r) {depth : Nat} {env : Env} {m after : Memory}
    (hRun : d.tree.execute r .blank depth .whole env m = some after) :
    ∃ after', d'.tree.execute r .blank depth .whole env m = some after'
      ∧ AgreeOn d.tree.lastingNames after after' := by
  induction h generalizing after with
  | done d => exact ⟨after, hRun, fun _ _ => rfl⟩
  | @call d d' site callee args calls f b copy next log hFunction hCount hFit hCopied _ ih =>
    obtain ⟨hBuffers, hValues, hDeclared⟩ := bindArgs_spec hCount hFit
    rw [List.append_nil] at hBuffers
    rw [List.nil_append] at hValues
    have hNamed : ∀ {x}, x ∈ (Stmt.call site callee args).ownNames
        ∨ (∃ e ∈ (Stmt.call site callee args).exprs, x ∈ e.scalars ∨ x ∈ e.buffers) →
        x ∈ d.tree.usedNames := fun hx => Stmt.mem_usedNames.mpr ⟨_, hWaiting.head_mem, hx⟩
    -- the copy follows the call, so the program with the copy follows the program
    have hCopy := privateCopy_follows hFunction hBuffers hValues hCopied
      (hSteady _ List.mem_cons_self) (List.Subset.refl d.tree.usedNames)
      (fun a ha => hNamed (.inl (Stmt.mem_ownNames_call (mem_aliases ha))))
      (fun v hv x hx => hNamed (.inr ⟨v.2, Stmt.mem_argValues (mem_passed hv), .inl hx⟩))
      (fun v hv x hx => hNamed (.inr ⟨v.2, Stmt.mem_argValues (mem_passed hv), .inr hx⟩)) depth
    obtain ⟨between, hBetween, hAgree⟩ := (hWaiting.replaces copy).follows hCopy env m m after
      (fun _ _ => rfl) hRun
    have hSpec := privateCopy_spec d.tree d.next f b (site.label.getD callee)
    rw [hCopied] at hSpec
    obtain ⟨hNext, hIds, hBounds, -, -⟩ := hSpec
    obtain ⟨after', hAfter, hRest⟩ := ih (hWaiting.expand hNext hIds hBounds)
      (fun e he => hSteady e (List.mem_cons_of_mem _ he)) hBetween
    refine ⟨after', hAfter, fun c hc => ?_⟩
    rw [hRest c (hWaiting.lastingNames_subset hDeclared copy hc),
      hAgree c (Stmt.bufferNames_subset _ (Stmt.lastingNames_subset _ hc))]

/-- When the names of all expansions are apart, no call that waits reads a buffer in an argument. -/
theorem Expands.pure (h : Expands r d calls log d') (hApart : ∀ e ∈ log, e.Apart) {site : Site}
    {callee : String} {args : List Arg} (hCall : .call site callee args ∈ calls) {e : Expr}
    (he : .value e ∈ args) : e.buffers = [] := by
  induction h with
  | done d => cases hCall
  | call _ hCount _ _ _ ih =>
    rcases List.mem_cons.mp hCall with hHead | hTail
    · cases hHead
      obtain ⟨v, hv, rfl⟩ := exists_passed hCount he
      exact (hApart _ List.mem_cons_self).pure v hv
    · exact ih (fun e he => hApart e (List.mem_cons_of_mem _ he)) (List.mem_append_right _ hTail)

/-- **All buffers last** when the names of all expansions are apart. -/
theorem Expands.follows (h : Expands r d calls log d') (hPending : Pending d calls)
    (hApart : ∀ e ∈ log, e.Apart) {depth : Nat} {env : Env} {m after : Memory}
    (hRun : d.tree.execute r .blank depth .whole env m = some after) :
    ∃ after', d'.tree.execute r .blank depth .whole env m = some after'
      ∧ AgreeOn d.tree.bufferNames after after' := by
  obtain ⟨after', hAfter, hAgree⟩ := h.follows_steady hPending.toWaiting
    (fun e he => (hApart e he).steady r) hRun
  refine ⟨after', hAfter, fun c hc => hAgree c ?_⟩
  obtain ⟨u, hu, hc⟩ := Stmt.mem_bufferNames.mp hc
  refine Stmt.mem_lastingNames.mpr ⟨u, hu, ?_⟩
  cases u with
  | call site callee args =>
    refine (List.mem_append.mp hc).resolve_right fun hLoad => ?_
    obtain ⟨e, he, hLoad⟩ := List.mem_flatMap.mp hLoad
    obtain ⟨arg, hArg, hValue⟩ := List.mem_filterMap.mp he
    cases arg with
    | buffer a => cases hValue
    | value e' =>
      cases hValue
      rw [h.pure hApart (hPending.all _ hu rfl) hArg] at hLoad
      cases hLoad
  | _ => exact hc

theorem expansions_call {site : Site} {callee : String} {args : List Arg} {f : Function} {b : Binding}
    (hFunction : r.get? callee = some f)
    (hFit : bindArgs (fun name => d.tree.bufferAt? name site.id) callee f.body.written {} f.params args
      = .ok b) (count : Nat) :
    let copied := privateCopy d.tree d.next f b (site.label.getD callee)
    expansions r (count + 1) d (.call site callee args :: calls)
      = ⟨f, args⟩ :: expansions r count ⟨d.tree.update site.id fun _ => copied.1, copied.2⟩
        (copied.1.calls ++ calls) := by
  rw [expansions]
  simp only [hFunction, hFit]

theorem privateCopies_call {site : Site} {callee : String} {args : List Arg} {f : Function}
    {b : Binding} (hFunction : r.get? callee = some f)
    (hFit : bindArgs (fun name => d.tree.bufferAt? name site.id) callee f.body.written {} f.params args
      = .ok b) (count : Nat) :
    let copied := privateCopy d.tree d.next f b (site.label.getD callee)
    privateCopies r (count + 1) d (.call site callee args :: calls)
      = copied.1 :: privateCopies r count ⟨d.tree.update site.id fun _ => copied.1, copied.2⟩
        (copied.1.calls ++ calls) := by
  rw [privateCopies]
  simp only [hFunction, hFit]

theorem Expands.expansions_eq (h : Expands r d calls log d') :
    expansions r log.length d calls = log := by
  induction h with
  | done d => rfl
  | call function _ fit copied _ ih => rw [List.length_cons, expansions_call function fit, copied, ih]

end Restructure

/-! ## Programs without calls -/

namespace Stmt

theorem inTurn_map_eq_foldlM {α : Type} (f : α → Change) (xs : List α) (m : Memory) :
    Change.inTurn (xs.map f) m = xs.foldlM (fun m x => f x m) m := by
  induction xs generalizing m with
  | nil => rfl
  | cons x xs ih =>
    rw [List.map_cons, Change.inTurn_cons, Change.seq, List.foldlM_cons, Option.bind_eq_bind]
    exact Option.bind_congr fun between _ => ih between

/-- What calls do is of no importance to a program without calls. -/
theorem runOn_eq_change (call : Env → String → List Arg → Transition Memory) (fresh : Memory) :
    ∀ (t : Stmt) (env : Env), (∀ u ∈ t.nodes, u.isCall = false) → ∀ m,
      t.runOn .whole call fresh env m = t.change (.reference fresh) env m := by
  have hBelow : ∀ {t c : Stmt}, (∀ u ∈ t.nodes, u.isCall = false) → c ∈ t.children →
      ∀ u ∈ c.nodes, u.isCall = false := fun h hc u hu => h u (mem_nodes_of_child hc hu)
  refine Stmt.ind ?decl ?loop ?guard ?branch ?store ?call ?block ?hole
  case decl =>
    intro s n b body ih env hNone m
    have hBody := ih env (hBelow hNone (by simp [children]))
    rw [change_decl, runOn]
    split
    · show (body.runOn .whole call fresh env (m.exchange n (fresh n))).bind
        (fun after => some (after.exchange n (m n))) = Change.withLocal n (fresh n) _ m
      rw [hBody, Change.withLocal, Option.map_eq_bind]
      rfl
    · exact hBody m
  case loop =>
    intro s head body ih env hNone m
    have hBody := fun env => ih env (hBelow hNone (by simp [children]))
    simp only [change_loop, runOn, Option.bind_eq_bind, Expr.valueWith?_reference, View.whole_seen,
      inTurn_map_eq_foldlM, hBody]
  case guard =>
    intro s c body ih env hNone m
    have hBody := ih env (hBelow hNone (by simp [children]))
    simp only [change_guard, runOn, Option.bind_eq_bind, Expr.valueWith?_reference, View.whole_seen,
      hBody]
  case branch =>
    intro s c yes no ihYes ihNo env hNone m
    have hYes := ihYes env (hBelow hNone (by simp [children]))
    have hNo := ihNo env (hBelow hNone (by simp [children]))
    simp only [change_branch, runOn, Option.bind_eq_bind, Expr.valueWith?_reference, View.whole_seen,
      hYes, hNo]
  case store =>
    intro s b is e env _ m
    simp only [change_store, runOn, Option.bind_eq_bind, Expr.valueWith?_reference,
      Expr.valuesWith?_reference, View.whole_seen, View.whole_put]
    cases Expr.values? env m is with
    | none => rfl
    | some cell => cases h : e.value? env m <;> simp
  case call =>
    intro s f args env hNone m
    exact absurd (hNone _ (self_mem_nodes _)) Bool.noConfusion
  case block =>
    intro s ts ih env hNone m
    have hEach : ∀ t ∈ ts, ∀ m, t.runOn .whole call fresh env m = t.change (.reference fresh) env m :=
      fun t ht => ih t ht env (hBelow hNone (by simpa [children] using ht))
    rw [change_block, runOn]
    clear ih hNone
    induction ts generalizing m with
    | nil => rfl
    | cons t ts ihList =>
      show (t.runOn .whole call fresh env m).bind (runAllOn .whole call fresh env ts) = _
      rw [hEach t List.mem_cons_self, List.map_cons, Change.inTurn_cons]
      exact Option.bind_congr fun between _ =>
        ihList between fun u hu => hEach u (List.mem_cons_of_mem t hu)
  case hole =>
    intro s env _ m
    rw [change_hole]
    rfl

end Stmt

namespace Restructure

/-- Four elements that a program may access in some way. -/
def fourCells (access : AccessClass) : Buffer := ⟨[.int 4], .int32, access, .cpu⟩

/-- A number passed by value. -/
def oneValue : Param := ⟨"k", ⟨[], .int32, .input, .byValue⟩⟩

/-- Multiplies four elements by a number. -/
def scaling : Function where
  name := "scale"
  params := [⟨"x", fourCells .input⟩, ⟨"y", fourCells .output⟩, oneValue]
  body := .loop ⟨0, some "L"⟩ { iter := "i", lower := .int 0, upper := .int 4 }
    (.store ⟨1, none⟩ "y" [.var "i"] (.mul (.load "x" [.var "i"]) (.var "k")))

/-- Multiplies them twice, by way of a buffer of its own. -/
def scalingTwice : Function where
  name := "twice"
  params := [⟨"x", fourCells .input⟩, ⟨"y", fourCells .output⟩, oneValue]
  body := .decl ⟨0, none⟩ "t" (fourCells .cache) (.block ⟨1, none⟩ [
    .call ⟨2, none⟩ "scale" [.buffer "x", .buffer "t", .value (.var "k")],
    .call ⟨3, none⟩ "scale" [.buffer "t", .buffer "y", .value (.load "k" [])]])

/-- A program that calls this function in a loop, with a value that its iterator occurs in. The
    multiplication has an iterator of the same name. -/
def scalingHost : Stmt :=
  .decl ⟨0, none⟩ "a" (fourCells .input) (.decl ⟨1, none⟩ "b" (fourCells .output)
    (.loop ⟨2, none⟩ { iter := "i", lower := .int 0, upper := .int 2 }
      (.call ⟨3, some "C"⟩ "twice" [.buffer "a", .buffer "b", .value (.add (.var "i") (.int 2))])))

/-- Three calls are expanded in it. -/
theorem exists_scaled :
    ∃ d, expandAll ⟨[scaling, scalingTwice]⟩ (Draft.of scalingHost.number) = .ok (d, 3) := by
  have hCount : (expandAll ⟨[scaling, scalingTwice]⟩ (Draft.of scalingHost.number)).toOption.map
      Prod.snd = some 3 := by decide +kernel
  cases hExpand : expandAll ⟨[scaling, scalingTwice]⟩ (Draft.of scalingHost.number) with
  | error c =>
    rw [hExpand] at hCount
    cases hCount
  | ok p =>
    obtain ⟨d, n⟩ := p
    rw [hExpand] at hCount
    obtain rfl : n = 3 := Option.some.inj hCount
    exact ⟨d, rfl⟩

/-- All elements of the first buffer are 5 at the start. -/
def fives : Memory := fun b _ => if b = "a" then some 5 else none

end Restructure

end LoopNest
