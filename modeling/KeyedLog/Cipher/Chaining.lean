import KeyedLog.Cipher.Aes

/-!
# Chained blocks

Cipher block chaining over an arbitrary block cipher: each block is combined with the encrypted
block before it, the first one with an initial block.
-/
namespace KeyedLog.Chaining

open Aes (Block)

/-- Encrypt blocks after those done, which are held backwards. -/
def encryptOnto (cipher : Block → Block) (done : List Block) (previous : Block) :
    List Block → List Block
  | [] => done.reverse
  | x :: rest =>
    let y := cipher (x.xor previous)
    encryptOnto cipher (y :: done) y rest

def encrypt (cipher : Block → Block) (initial : Block) (plain : List Block) : List Block :=
  encryptOnto cipher [] initial plain

/-- Decrypt blocks after those done, which are held backwards. -/
def decryptOnto (decipher : Block → Block) (done : List Block) (previous : Block) :
    List Block → List Block
  | [] => done.reverse
  | y :: rest => decryptOnto decipher ((decipher y).xor previous :: done) y rest

def decrypt (decipher : Block → Block) (initial : Block) (hidden : List Block) : List Block :=
  decryptOnto decipher [] initial hidden

end KeyedLog.Chaining
