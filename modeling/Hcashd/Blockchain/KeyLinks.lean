import Hcashd.Blockchain.Chain

/-!
# Links between key blocks

A header names the last key block before it. `prevKeyHashExists` compares that name with the parent:
with the parent itself if it is a key block, and else with what the parent names. On a chain whose
blocks all passed the comparison every header names the nearest key block below it.
-/

namespace Hcashd.Blockchain

open Lib List

variable (env : Env)

/-- The hash of the last key block of a chain of headers, newest first, and the zero hash if there
is none. -/
def nearestKeyHash (headers : List BlockHeader) : Hash :=
  match headers.find? (isKeyBlock env) with
  | some header => env.blockHash header
  | none => 0

/-- Every header names the last key block before it. -/
def KeysNamed : List BlockHeader → Prop
  | [] => True
  | header :: headers => header.prevKeyBlock = nearestKeyHash env headers ∧ KeysNamed headers

instance decidableKeysNamed : (headers : List BlockHeader) → Decidable (KeysNamed env headers)
  | [] => inferInstanceAs (Decidable True)
  | _ :: headers =>
    haveI := decidableKeysNamed headers
    inferInstanceAs (Decidable (_ ∧ _))

/-- A chain from the genesis block whose nodes are those of the blocks, with different hashes, and
whose headers name the key blocks before them. -/
structure NamesKeys (chain : Chain) : Prop where
  node : ∀ b ∈ chain, b.node = newBlockNode env b.block
  nodup : (chain.map fun b => b.node.hash).Nodup
  last : ∀ b ∈ chain.getLast?, b.node.hash = env.blockHash env.params.genesisBlock.header
  linked : KeysNamed env (Chain.headers chain)

variable {env}

variable {headers : List BlockHeader}

/-- A micro block keeps the nearest key block. -/
theorem nearestKeyHash_cons_of_micro {header : BlockHeader} (h : isKeyBlock env header = false) :
    nearestKeyHash env (header :: headers) = nearestKeyHash env headers := by
  rw [nearestKeyHash, find?_cons_of_neg (by rw [h]; decide), nearestKeyHash]

/-- `prevKeyHashExists` compares with the last key block, on a linked chain. -/
theorem prevKeyHashExists_eq_ok {header prevHeader : BlockHeader}
    (hlinked : KeysNamed env (prevHeader :: headers)) :
    prevKeyHashExists env header prevHeader = .ok ⟨⟩ ↔
      header.prevKeyBlock = nearestKeyHash env (prevHeader :: headers) := by
  rw [prevKeyHashExists, rejectIf_eq_ok, not_not]
  cases hkey : isKeyBlock env prevHeader with
  | true => rw [nearestKeyHash, find?_cons_of_pos hkey, if_pos rfl]
  | false =>
    rw [nearestKeyHash_cons_of_micro hkey, if_neg Bool.false_ne_true, hlinked.1]

theorem NamesKeys.ne_genesis {prev b : ChainBlock} {below : Chain}
    (h : NamesKeys env (prev :: below))
    (hb : b ∈ below) : prev.node.hash ≠ env.blockHash env.params.genesisBlock.header := by
  have hne : below ≠ [] := ne_nil_of_mem hb
  have hgenesis := h.last (below.getLast hne) (by
    rw [getLast?_cons, getLast?_eq_some_getLast hne]
    rfl)
  intro heq
  exact (nodup_cons.1 h.nodup).1
    (mem_map.2 ⟨below.getLast hne, getLast_mem hne, hgenesis.trans heq.symm⟩)

/-- The chain of an accepted state names its key blocks, if the genesis block names none. -/
theorem namesKeys_of_accepted {P : ChainState → MsgBlock → Prop} {st : ChainState}
    (hgenesis : env.params.genesisBlock.header.prevKeyBlock = 0) (hst : Accepted env P st) :
    NamesKeys env st.chain := by
  induction hst with
  | genesis =>
    refine ⟨fun b hb => ?_, nodup_singleton _, fun b hb => ?_, ⟨hgenesis, trivial⟩⟩
    · obtain rfl := mem_singleton.1 hb
      rfl
    · obtain rfl := Option.some.inj hb
      rfl
  | @block st st' adjustedTime block _ _ hprocess ih =>
    obtain ⟨_, hcheck, hprocess⟩ := bind_eq_ok.1 hprocess
    obtain ⟨c, -, hconnect⟩ := bind_eq_ok.1 hprocess
    simp only [checkBlock, bind_eq_ok, rejectIf_eq_ok, exists_const] at hcheck
    obtain ⟨hnew, _, -, -, _, hkey, -⟩ := hcheck
    simp only [connectBlock, bind_eq_ok, pure_eq_ok] at hconnect
    obtain ⟨_, -, stakeNode, -, rfl⟩ := hconnect
    refine ⟨forall_mem_cons.2 ⟨rfl, ih.node⟩, nodup_cons.2 ⟨?_, ih.nodup⟩, ih.last, ?_, ih.linked⟩
    · intro hmem
      obtain ⟨b, hb, heq⟩ := mem_map.1 hmem
      exact hnew ⟨b, hb, heq⟩
    · exact (prevKeyHashExists_eq_ok ih.linked).1 hkey

end Hcashd.Blockchain
