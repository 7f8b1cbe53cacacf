import AcCore.Tex.Cex.Market

/-!
# Accounts

The wallets of an account by currency, and the orders that are tracked for it.
-/

namespace AcCore.Tex.Cex

open Lib

/-- `account`, without the list of its past trades. -/
structure Account where
  password : UInt64
  commissionDiscount : ℚ
  wallets : Table Cur Wallet
  orders : Finset Id

namespace Account

/-- A new account. -/
def create (password : UInt64) : Account := ⟨password, 0, ∅, ∅⟩

/-- `new_wallet`: nothing changes when the wallet exists already. -/
def newWallet (a : Account) (cid : Cur) : Account :=
  { a with wallets := Table.emplace cid ⟨0⟩ a.wallets }

/-- `delete_wallet`: a wallet with funds stays. -/
def deleteWallet (a : Account) (cid : Cur) : Account :=
  match a.wallets.lookup cid with
  | none => a
  | some w => if w.available > 0 then a else { a with wallets := a.wallets.erase cid }

/-- `delete_all_wallets`. -/
def deleteAllWallets (a : Account) : Account := (Table.keyList a.wallets).foldl deleteWallet a

/-- `deposit`. -/
def deposit (a : Account) (cid : Cur) (amount : ℤ) : Account :=
  { a with wallets := a.wallets.insert cid (((a.wallets.lookup cid).getD ⟨0⟩).deposit amount) }

/-- `withdraw`: what was withdrawn. -/
def withdraw (a : Account) (cid : Cur) (amount : ℤ) : ℤ × Account :=
  match a.wallets.lookup cid with
  | none => (0, a)
  | some w =>
    ((w.withdraw amount).1, { a with wallets := a.wallets.insert cid (w.withdraw amount).2 })

/-- `untrack_order`. -/
def untrackOrder (a : Account) (i : Id) : Account := { a with orders := a.orders.erase i }

/-- `track_order`. -/
def trackOrder (a : Account) (i : Id) : Account := { a with orders := insert i a.orders }

/-- `set_commission_discount`. -/
def setCommissionDiscount (a : Account) (d : ℚ) : Account :=
  if d > 1 ∨ d < 0 then a else { a with commissionDiscount := d }

end Account

/-- `encode(net,comm,tot)`: both are rounded down, and the difference to the
total goes to the commission if it is more than 100. -/
def encodeNetComm [Rounding] (net comm : ℚ) (tot : ℤ) : ℤ × ℤ :=
  let diff := tot - (floorOne net + floorOne comm)
  if floorOne comm > 100 then (floorOne net, floorOne comm + diff)
  else (floorOne net + diff, floorOne comm)

/-- The net amount and the commission of `pay`, 0.5 % less the discount. -/
def netcomm [Rounding] (discount : ℚ) (amount : ℤ) : ℤ × ℤ :=
  let commissionPerc := Rounding.round
    (Rounding.round (5 / 1000) * Rounding.round (1 - discount))
  let am := decodeDbl amount
  let commission := Rounding.round (am * commissionPerc)
  encodeNetComm (Rounding.round (am - commission)) commission amount

end AcCore.Tex.Cex
