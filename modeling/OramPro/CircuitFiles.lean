import OramPro.Affine
import OramPro.BmrOnline
import OramPro.FourParty

/-!
# The circuits of the bitwise opcodes

The files of `cir` that `run_op` and the audited transfer read, gate by gate. The regular ones are written
by stages. The shifts become affine once the low five bits of the shift amount are known, so their forms
decide what they compute.
-/
namespace OramPro.Cir

open BMR Netlist

/-! ## The files -/

def and_32 : Circuit := ⟨96,32,32,32,(List.range 32).map fun i => .AND i (32+i) (64+i)⟩

def xor_32 : Circuit := ⟨96,32,32,32,(List.range 32).map fun i => .XOR i (32+i) (64+i)⟩

def not_32 : Circuit := ⟨64,32,0,32,(List.range 32).map fun i => .NOT i (32+i)⟩

/-- The wires of bit `i` of `or_32`. -/
def orStage (i : ℕ) : List BMR.Gate :=
  [.NOT i (64+3*i),.NOT (32+i) (65+3*i),.AND (64+3*i) (65+3*i) (66+3*i),.NOT (66+3*i) (160+i)]

def or_32 : Circuit := ⟨192,32,32,32,(List.range 32).flatMap orStage⟩

/-- A full adder; the carry comes in on wire `c`. -/
def addStage (i : ℕ) : List BMR.Gate :=
  let c := 60+4*i
  [.XOR c (32+i) (c+1),.XOR (c+1) i (186+i),.XOR c i (c+2),.AND (c+1) (c+2) (c+3),.XOR c (c+3) (c+4)]

def add_32 : Circuit := ⟨218,32,32,32,[.XOR 0 32 186,.AND 0 32 64] ++ (List.range' 1 30).flatMap addStage ++
  [.XOR 184 63 185,.XOR 185 31 217]⟩

/-- A full subtractor; wire `c` is set if there is no borrow. -/
def subStage (i : ℕ) : List BMR.Gate :=
  let c := 60+5*i
  [.XOR c (32+i) (c+1),.NOT (c+1) (c+2),.XOR (c+2) i (218+i),.XOR c i (c+3),.AND (c+3) (c+2) (c+4),
    .XOR c (c+4) (c+5)]

def sub_32 : Circuit := ⟨250,32,32,32,[.XOR 0 32 218,.NOT 0 64,.AND 64 32 65,.XOR 65 33 66,.XOR 66 1 219,
  .NOT 65 67,.XOR 67 1 68,.AND 68 66 69,.XOR 67 69 70] ++ (List.range' 2 29).flatMap subStage ++
  [.XOR 215 63 216,.XOR 216 31 217,.NOT 217 249]⟩

def zero_check : Circuit := ⟨96,32,0,1,(List.range 32).map (fun i => .NOT i (32+i)) ++ [.AND 32 33 64] ++
  (List.range' 1 30).map (fun k => .AND (33+k) (63+k) (64+k)) ++ [.NOT 94 95]⟩

set_option maxRecDepth 4000 in
def left_shift : Circuit := ⟨487,32,32,32,[
  .NOT 36 64,.NOT 35 65,.NOT 34 66,.NOT 33 67,.NOT 32 68,.AND 68 0 69,.AND 67 69 70,.AND 66 70 71,
  .AND 65 71 72,.AND 64 72 455,.XOR 0 1 73,.AND 73 32 74,.XOR 74 1 75,.AND 75 67 76,.AND 66 76 77,
  .AND 65 77 78,.AND 64 78 456,.XOR 1 2 79,.AND 79 32 80,.XOR 80 2 81,.XOR 81 69 82,.AND 82 33 83,
  .XOR 81 83 84,.AND 84 66 85,.AND 65 85 86,.AND 64 86 457,.XOR 2 3 87,.AND 87 32 88,.XOR 88 3 89,
  .XOR 75 89 90,.AND 90 33 91,.XOR 89 91 92,.AND 92 66 93,.AND 65 93 94,.AND 64 94 458,.XOR 3 4 95,
  .AND 95 32 96,.XOR 96 4 97,.XOR 81 97 98,.AND 98 33 99,.XOR 97 99 100,.XOR 100 70 101,.AND 101 34 102,
  .XOR 100 102 103,.AND 103 65 104,.AND 64 104 459,.XOR 4 5 105,.AND 105 32 106,.XOR 106 5 107,
  .XOR 89 107 108,.AND 108 33 109,.XOR 107 109 110,.XOR 110 76 111,.AND 111 34 112,.XOR 110 112 113,
  .AND 113 65 114,.AND 64 114 460,.XOR 5 6 115,.AND 115 32 116,.XOR 116 6 117,.XOR 97 117 118,
  .AND 118 33 119,.XOR 117 119 120,.XOR 84 120 121,.AND 121 34 122,.XOR 120 122 123,.AND 123 65 124,
  .AND 64 124 461,.XOR 6 7 125,.AND 125 32 126,.XOR 126 7 127,.XOR 107 127 128,.AND 128 33 129,
  .XOR 127 129 130,.XOR 92 130 131,.AND 131 34 132,.XOR 130 132 133,.AND 133 65 134,.AND 64 134 462,
  .XOR 7 8 135,.AND 135 32 136,.XOR 136 8 137,.XOR 117 137 138,.AND 138 33 139,.XOR 137 139 140,
  .XOR 100 140 141,.AND 141 34 142,.XOR 140 142 143,.XOR 143 71 144,.AND 144 35 145,.XOR 143 145 146,
  .AND 146 64 463,.XOR 8 9 147,.AND 147 32 148,.XOR 148 9 149,.XOR 127 149 150,.AND 150 33 151,
  .XOR 149 151 152,.XOR 110 152 153,.AND 153 34 154,.XOR 152 154 155,.XOR 155 77 156,.AND 156 35 157,
  .XOR 155 157 158,.AND 158 64 464,.XOR 9 10 159,.AND 159 32 160,.XOR 160 10 161,.XOR 137 161 162,
  .AND 162 33 163,.XOR 161 163 164,.XOR 120 164 165,.AND 165 34 166,.XOR 164 166 167,.XOR 167 85 168,
  .AND 168 35 169,.XOR 167 169 170,.AND 170 64 465,.XOR 10 11 171,.AND 171 32 172,.XOR 172 11 173,
  .XOR 149 173 174,.AND 174 33 175,.XOR 173 175 176,.XOR 130 176 177,.AND 177 34 178,.XOR 176 178 179,
  .XOR 179 93 180,.AND 180 35 181,.XOR 179 181 182,.AND 182 64 466,.XOR 11 12 183,.AND 183 32 184,
  .XOR 184 12 185,.XOR 161 185 186,.AND 186 33 187,.XOR 185 187 188,.XOR 140 188 189,.AND 189 34 190,
  .XOR 188 190 191,.XOR 103 191 192,.AND 192 35 193,.XOR 191 193 194,.AND 194 64 467,.XOR 12 13 195,
  .AND 195 32 196,.XOR 196 13 197,.XOR 173 197 198,.AND 198 33 199,.XOR 197 199 200,.XOR 152 200 201,
  .AND 201 34 202,.XOR 200 202 203,.XOR 113 203 204,.AND 204 35 205,.XOR 203 205 206,.AND 206 64 468,
  .XOR 13 14 207,.AND 207 32 208,.XOR 208 14 209,.XOR 185 209 210,.AND 210 33 211,.XOR 209 211 212,
  .XOR 164 212 213,.AND 213 34 214,.XOR 212 214 215,.XOR 123 215 216,.AND 216 35 217,.XOR 215 217 218,
  .AND 218 64 469,.XOR 14 15 219,.AND 219 32 220,.XOR 220 15 221,.XOR 197 221 222,.AND 222 33 223,
  .XOR 221 223 224,.XOR 176 224 225,.AND 225 34 226,.XOR 224 226 227,.XOR 133 227 228,.AND 228 35 229,
  .XOR 227 229 230,.AND 230 64 470,.XOR 15 16 231,.AND 231 32 232,.XOR 232 16 233,.XOR 209 233 234,
  .AND 234 33 235,.XOR 233 235 236,.XOR 188 236 237,.AND 237 34 238,.XOR 236 238 239,.XOR 143 239 240,
  .AND 240 35 241,.XOR 239 241 242,.XOR 242 72 243,.AND 243 36 244,.XOR 242 244 471,.XOR 16 17 245,
  .AND 245 32 246,.XOR 246 17 247,.XOR 221 247 248,.AND 248 33 249,.XOR 247 249 250,.XOR 200 250 251,
  .AND 251 34 252,.XOR 250 252 253,.XOR 155 253 254,.AND 254 35 255,.XOR 253 255 256,.XOR 256 78 257,
  .AND 257 36 258,.XOR 256 258 472,.XOR 17 18 259,.AND 259 32 260,.XOR 260 18 261,.XOR 233 261 262,
  .AND 262 33 263,.XOR 261 263 264,.XOR 212 264 265,.AND 265 34 266,.XOR 264 266 267,.XOR 167 267 268,
  .AND 268 35 269,.XOR 267 269 270,.XOR 270 86 271,.AND 271 36 272,.XOR 270 272 473,.XOR 18 19 273,
  .AND 273 32 274,.XOR 274 19 275,.XOR 247 275 276,.AND 276 33 277,.XOR 275 277 278,.XOR 224 278 279,
  .AND 279 34 280,.XOR 278 280 281,.XOR 179 281 282,.AND 282 35 283,.XOR 281 283 284,.XOR 284 94 285,
  .AND 285 36 286,.XOR 284 286 474,.XOR 19 20 287,.AND 287 32 288,.XOR 288 20 289,.XOR 261 289 290,
  .AND 290 33 291,.XOR 289 291 292,.XOR 236 292 293,.AND 293 34 294,.XOR 292 294 295,.XOR 191 295 296,
  .AND 296 35 297,.XOR 295 297 298,.XOR 298 104 299,.AND 299 36 300,.XOR 298 300 475,.XOR 20 21 301,
  .AND 301 32 302,.XOR 302 21 303,.XOR 275 303 304,.AND 304 33 305,.XOR 303 305 306,.XOR 250 306 307,
  .AND 307 34 308,.XOR 306 308 309,.XOR 203 309 310,.AND 310 35 311,.XOR 309 311 312,.XOR 312 114 313,
  .AND 313 36 314,.XOR 312 314 476,.XOR 21 22 315,.AND 315 32 316,.XOR 316 22 317,.XOR 289 317 318,
  .AND 318 33 319,.XOR 317 319 320,.XOR 264 320 321,.AND 321 34 322,.XOR 320 322 323,.XOR 215 323 324,
  .AND 324 35 325,.XOR 323 325 326,.XOR 326 124 327,.AND 327 36 328,.XOR 326 328 477,.XOR 22 23 329,
  .AND 329 32 330,.XOR 330 23 331,.XOR 303 331 332,.AND 332 33 333,.XOR 331 333 334,.XOR 278 334 335,
  .AND 335 34 336,.XOR 334 336 337,.XOR 227 337 338,.AND 338 35 339,.XOR 337 339 340,.XOR 340 134 341,
  .AND 341 36 342,.XOR 340 342 478,.XOR 23 24 343,.AND 343 32 344,.XOR 344 24 345,.XOR 317 345 346,
  .AND 346 33 347,.XOR 345 347 348,.XOR 292 348 349,.AND 349 34 350,.XOR 348 350 351,.XOR 239 351 352,
  .AND 352 35 353,.XOR 351 353 354,.XOR 146 354 355,.AND 355 36 356,.XOR 354 356 479,.XOR 24 25 357,
  .AND 357 32 358,.XOR 358 25 359,.XOR 331 359 360,.AND 360 33 361,.XOR 359 361 362,.XOR 306 362 363,
  .AND 363 34 364,.XOR 362 364 365,.XOR 253 365 366,.AND 366 35 367,.XOR 365 367 368,.XOR 158 368 369,
  .AND 369 36 370,.XOR 368 370 480,.XOR 25 26 371,.AND 371 32 372,.XOR 372 26 373,.XOR 345 373 374,
  .AND 374 33 375,.XOR 373 375 376,.XOR 320 376 377,.AND 377 34 378,.XOR 376 378 379,.XOR 267 379 380,
  .AND 380 35 381,.XOR 379 381 382,.XOR 170 382 383,.AND 383 36 384,.XOR 382 384 481,.XOR 26 27 385,
  .AND 385 32 386,.XOR 386 27 387,.XOR 359 387 388,.AND 388 33 389,.XOR 387 389 390,.XOR 334 390 391,
  .AND 391 34 392,.XOR 390 392 393,.XOR 281 393 394,.AND 394 35 395,.XOR 393 395 396,.XOR 182 396 397,
  .AND 397 36 398,.XOR 396 398 482,.XOR 27 28 399,.AND 399 32 400,.XOR 400 28 401,.XOR 373 401 402,
  .AND 402 33 403,.XOR 401 403 404,.XOR 348 404 405,.AND 405 34 406,.XOR 404 406 407,.XOR 295 407 408,
  .AND 408 35 409,.XOR 407 409 410,.XOR 194 410 411,.AND 411 36 412,.XOR 410 412 483,.XOR 28 29 413,
  .AND 413 32 414,.XOR 414 29 415,.XOR 387 415 416,.AND 416 33 417,.XOR 415 417 418,.XOR 362 418 419,
  .AND 419 34 420,.XOR 418 420 421,.XOR 309 421 422,.AND 422 35 423,.XOR 421 423 424,.XOR 206 424 425,
  .AND 425 36 426,.XOR 424 426 484,.XOR 29 30 427,.AND 427 32 428,.XOR 428 30 429,.XOR 401 429 430,
  .AND 430 33 431,.XOR 429 431 432,.XOR 376 432 433,.AND 433 34 434,.XOR 432 434 435,.XOR 323 435 436,
  .AND 436 35 437,.XOR 435 437 438,.XOR 218 438 439,.AND 439 36 440,.XOR 438 440 485,.XOR 30 31 441,
  .AND 441 32 442,.XOR 442 31 443,.XOR 415 443 444,.AND 444 33 445,.XOR 443 445 446,.XOR 390 446 447,
  .AND 447 34 448,.XOR 446 448 449,.XOR 337 449 450,.AND 450 35 451,.XOR 449 451 452,.XOR 230 452 453,
  .AND 453 36 454,.XOR 452 454 486]⟩

set_option maxRecDepth 4000 in
def right_shift : Circuit := ⟨530,32,32,32,[
  .XOR 0 1 64,.AND 64 32 65,.XOR 65 0 66,.XOR 2 3 67,.AND 67 32 68,.XOR 68 2 69,.XOR 66 69 70,
  .AND 70 33 71,.XOR 66 71 72,.XOR 4 5 73,.AND 73 32 74,.XOR 74 4 75,.XOR 6 7 76,.AND 76 32 77,
  .XOR 77 6 78,.XOR 75 78 79,.AND 79 33 80,.XOR 75 80 81,.XOR 72 81 82,.AND 82 34 83,.XOR 72 83 84,
  .XOR 8 9 85,.AND 85 32 86,.XOR 86 8 87,.XOR 10 11 88,.AND 88 32 89,.XOR 89 10 90,.XOR 87 90 91,
  .AND 91 33 92,.XOR 87 92 93,.XOR 12 13 94,.AND 94 32 95,.XOR 95 12 96,.XOR 14 15 97,.AND 97 32 98,
  .XOR 98 14 99,.XOR 96 99 100,.AND 100 33 101,.XOR 96 101 102,.XOR 93 102 103,.AND 103 34 104,
  .XOR 93 104 105,.XOR 84 105 106,.AND 106 35 107,.XOR 84 107 108,.XOR 16 17 109,.AND 109 32 110,
  .XOR 110 16 111,.XOR 18 19 112,.AND 112 32 113,.XOR 113 18 114,.XOR 111 114 115,.AND 115 33 116,
  .XOR 111 116 117,.XOR 20 21 118,.AND 118 32 119,.XOR 119 20 120,.XOR 22 23 121,.AND 121 32 122,
  .XOR 122 22 123,.XOR 120 123 124,.AND 124 33 125,.XOR 120 125 126,.XOR 117 126 127,.AND 127 34 128,
  .XOR 117 128 129,.XOR 24 25 130,.AND 130 32 131,.XOR 131 24 132,.XOR 26 27 133,.AND 133 32 134,
  .XOR 134 26 135,.XOR 132 135 136,.AND 136 33 137,.XOR 132 137 138,.XOR 28 29 139,.AND 139 32 140,
  .XOR 140 28 141,.XOR 30 31 142,.AND 142 32 143,.XOR 143 30 144,.XOR 141 144 145,.AND 145 33 146,
  .XOR 141 146 147,.XOR 138 147 148,.AND 148 34 149,.XOR 138 149 150,.XOR 129 150 151,.AND 151 35 152,
  .XOR 129 152 153,.XOR 108 153 154,.AND 154 36 155,.XOR 108 155 498,.XOR 1 2 156,.AND 156 32 157,
  .XOR 157 1 158,.XOR 3 4 159,.AND 159 32 160,.XOR 160 3 161,.XOR 158 161 162,.AND 162 33 163,
  .XOR 158 163 164,.XOR 5 6 165,.AND 165 32 166,.XOR 166 5 167,.XOR 7 8 168,.AND 168 32 169,
  .XOR 169 7 170,.XOR 167 170 171,.AND 171 33 172,.XOR 167 172 173,.XOR 164 173 174,.AND 174 34 175,
  .XOR 164 175 176,.XOR 9 10 177,.AND 177 32 178,.XOR 178 9 179,.XOR 11 12 180,.AND 180 32 181,
  .XOR 181 11 182,.XOR 179 182 183,.AND 183 33 184,.XOR 179 184 185,.XOR 13 14 186,.AND 186 32 187,
  .XOR 187 13 188,.XOR 15 16 189,.AND 189 32 190,.XOR 190 15 191,.XOR 188 191 192,.AND 192 33 193,
  .XOR 188 193 194,.XOR 185 194 195,.AND 195 34 196,.XOR 185 196 197,.XOR 176 197 198,.AND 198 35 199,
  .XOR 176 199 200,.XOR 17 18 201,.AND 201 32 202,.XOR 202 17 203,.XOR 19 20 204,.AND 204 32 205,
  .XOR 205 19 206,.XOR 203 206 207,.AND 207 33 208,.XOR 203 208 209,.XOR 21 22 210,.AND 210 32 211,
  .XOR 211 21 212,.XOR 23 24 213,.AND 213 32 214,.XOR 214 23 215,.XOR 212 215 216,.AND 216 33 217,
  .XOR 212 217 218,.XOR 209 218 219,.AND 219 34 220,.XOR 209 220 221,.XOR 25 26 222,.AND 222 32 223,
  .XOR 223 25 224,.XOR 27 28 225,.AND 225 32 226,.XOR 226 27 227,.XOR 224 227 228,.AND 228 33 229,
  .XOR 224 229 230,.XOR 29 30 231,.AND 231 32 232,.XOR 232 29 233,.XOR 233 31 234,.AND 234 33 235,
  .XOR 233 235 236,.XOR 230 236 237,.AND 237 34 238,.XOR 230 238 239,.XOR 221 239 240,.AND 240 35 241,
  .XOR 221 241 242,.XOR 200 242 243,.AND 243 36 244,.XOR 200 244 499,.XOR 69 75 245,.AND 245 33 246,
  .XOR 69 246 247,.XOR 78 87 248,.AND 248 33 249,.XOR 78 249 250,.XOR 247 250 251,.AND 251 34 252,
  .XOR 247 252 253,.XOR 90 96 254,.AND 254 33 255,.XOR 90 255 256,.XOR 99 111 257,.AND 257 33 258,
  .XOR 99 258 259,.XOR 256 259 260,.AND 260 34 261,.XOR 256 261 262,.XOR 253 262 263,.AND 263 35 264,
  .XOR 253 264 265,.XOR 114 120 266,.AND 266 33 267,.XOR 114 267 268,.XOR 123 132 269,.AND 269 33 270,
  .XOR 123 270 271,.XOR 268 271 272,.AND 272 34 273,.XOR 268 273 274,.XOR 135 141 275,.AND 275 33 276,
  .XOR 135 276 277,.XOR 144 31 278,.AND 278 33 279,.XOR 144 279 280,.XOR 277 280 281,.AND 281 34 282,
  .XOR 277 282 283,.XOR 274 283 284,.AND 284 35 285,.XOR 274 285 286,.XOR 265 286 287,.AND 287 36 288,
  .XOR 265 288 500,.XOR 161 167 289,.AND 289 33 290,.XOR 161 290 291,.XOR 170 179 292,.AND 292 33 293,
  .XOR 170 293 294,.XOR 291 294 295,.AND 295 34 296,.XOR 291 296 297,.XOR 182 188 298,.AND 298 33 299,
  .XOR 182 299 300,.XOR 191 203 301,.AND 301 33 302,.XOR 191 302 303,.XOR 300 303 304,.AND 304 34 305,
  .XOR 300 305 306,.XOR 297 306 307,.AND 307 35 308,.XOR 297 308 309,.XOR 206 212 310,.AND 310 33 311,
  .XOR 206 311 312,.XOR 215 224 313,.AND 313 33 314,.XOR 215 314 315,.XOR 312 315 316,.AND 316 34 317,
  .XOR 312 317 318,.XOR 227 233 319,.AND 319 33 320,.XOR 227 320 321,.XOR 321 31 322,.AND 322 34 323,
  .XOR 321 323 324,.XOR 318 324 325,.AND 325 35 326,.XOR 318 326 327,.XOR 309 327 328,.AND 328 36 329,
  .XOR 309 329 501,.XOR 81 93 330,.AND 330 34 331,.XOR 81 331 332,.XOR 102 117 333,.AND 333 34 334,
  .XOR 102 334 335,.XOR 332 335 336,.AND 336 35 337,.XOR 332 337 338,.XOR 126 138 339,.AND 339 34 340,
  .XOR 126 340 341,.XOR 147 31 342,.AND 342 34 343,.XOR 147 343 344,.XOR 341 344 345,.AND 345 35 346,
  .XOR 341 346 347,.XOR 338 347 348,.AND 348 36 349,.XOR 338 349 502,.XOR 173 185 350,.AND 350 34 351,
  .XOR 173 351 352,.XOR 194 209 353,.AND 353 34 354,.XOR 194 354 355,.XOR 352 355 356,.AND 356 35 357,
  .XOR 352 357 358,.XOR 218 230 359,.AND 359 34 360,.XOR 218 360 361,.XOR 236 31 362,.AND 362 34 363,
  .XOR 236 363 364,.XOR 361 364 365,.AND 365 35 366,.XOR 361 366 367,.XOR 358 367 368,.AND 368 36 369,
  .XOR 358 369 503,.XOR 250 256 370,.AND 370 34 371,.XOR 250 371 372,.XOR 259 268 373,.AND 373 34 374,
  .XOR 259 374 375,.XOR 372 375 376,.AND 376 35 377,.XOR 372 377 378,.XOR 271 277 379,.AND 379 34 380,
  .XOR 271 380 381,.XOR 280 31 382,.AND 382 34 383,.XOR 280 383 384,.XOR 381 384 385,.AND 385 35 386,
  .XOR 381 386 387,.XOR 378 387 388,.AND 388 36 389,.XOR 378 389 504,.XOR 294 300 390,.AND 390 34 391,
  .XOR 294 391 392,.XOR 303 312 393,.AND 393 34 394,.XOR 303 394 395,.XOR 392 395 396,.AND 396 35 397,
  .XOR 392 397 398,.XOR 315 321 399,.AND 399 34 400,.XOR 315 400 401,.XOR 401 31 402,.AND 402 35 403,
  .XOR 401 403 404,.XOR 398 404 405,.AND 405 36 406,.XOR 398 406 505,.XOR 105 129 407,.AND 407 35 408,
  .XOR 105 408 409,.XOR 150 31 410,.AND 410 35 411,.XOR 150 411 412,.XOR 409 412 413,.AND 413 36 414,
  .XOR 409 414 506,.XOR 197 221 415,.AND 415 35 416,.XOR 197 416 417,.XOR 239 31 418,.AND 418 35 419,
  .XOR 239 419 420,.XOR 417 420 421,.AND 421 36 422,.XOR 417 422 507,.XOR 262 274 423,.AND 423 35 424,
  .XOR 262 424 425,.XOR 283 31 426,.AND 426 35 427,.XOR 283 427 428,.XOR 425 428 429,.AND 429 36 430,
  .XOR 425 430 508,.XOR 306 318 431,.AND 431 35 432,.XOR 306 432 433,.XOR 324 31 434,.AND 434 35 435,
  .XOR 324 435 436,.XOR 433 436 437,.AND 437 36 438,.XOR 433 438 509,.XOR 335 341 439,.AND 439 35 440,
  .XOR 335 440 441,.XOR 344 31 442,.AND 442 35 443,.XOR 344 443 444,.XOR 441 444 445,.AND 445 36 446,
  .XOR 441 446 510,.XOR 355 361 447,.AND 447 35 448,.XOR 355 448 449,.XOR 364 31 450,.AND 450 35 451,
  .XOR 364 451 452,.XOR 449 452 453,.AND 453 36 454,.XOR 449 454 511,.XOR 375 381 455,.AND 455 35 456,
  .XOR 375 456 457,.XOR 384 31 458,.AND 458 35 459,.XOR 384 459 460,.XOR 457 460 461,.AND 461 36 462,
  .XOR 457 462 512,.XOR 395 401 463,.AND 463 35 464,.XOR 395 464 465,.XOR 465 31 466,.AND 466 36 467,
  .XOR 465 467 513,.XOR 153 31 468,.AND 468 36 469,.XOR 153 469 514,.XOR 242 31 470,.AND 470 36 471,
  .XOR 242 471 515,.XOR 286 31 472,.AND 472 36 473,.XOR 286 473 516,.XOR 327 31 474,.AND 474 36 475,
  .XOR 327 475 517,.XOR 347 31 476,.AND 476 36 477,.XOR 347 477 518,.XOR 367 31 478,.AND 478 36 479,
  .XOR 367 479 519,.XOR 387 31 480,.AND 480 36 481,.XOR 387 481 520,.XOR 404 31 482,.AND 482 36 483,
  .XOR 404 483 521,.XOR 412 31 484,.AND 484 36 485,.XOR 412 485 522,.XOR 420 31 486,.AND 486 36 487,
  .XOR 420 487 523,.XOR 428 31 488,.AND 488 36 489,.XOR 428 489 524,.XOR 436 31 490,.AND 490 36 491,
  .XOR 436 491 525,.XOR 444 31 492,.AND 492 36 493,.XOR 444 493 526,.XOR 452 31 494,.AND 494 36 495,
  .XOR 452 495 527,.XOR 460 31 496,.AND 496 36 497,.XOR 460 497 528,.AND 31 31 529]⟩

/-! ## Topological order -/

lemma topological_of_bits {cf : Circuit} (hin : cf.in_size ≤ cf.num_wire) (hout : cf.n3 ≤ cf.num_wire)
    (h : orderedBits BMR.Gate.ins BMR.Gate.out cf.num_wire (2^cf.in_size-1) cf.gates = true) : cf.Topological := by
  refine ⟨hin,hout,.of_bits (fun w => ?_) h⟩
  rw [Nat.testBit_two_pow_sub_one, Finset.mem_range, decide_eq_true_eq]

/-- The circuits of the machine. -/
def files : List Circuit := [and_32,or_32,xor_32,not_32,left_shift,right_shift,add_32,sub_32,zero_check]

lemma files_ordered : ∀ cf ∈ files, cf.in_size ≤ cf.num_wire ∧ cf.n3 ≤ cf.num_wire ∧
    orderedBits BMR.Gate.ins BMR.Gate.out cf.num_wire (2^cf.in_size-1) cf.gates = true := by
  decide +kernel

lemma files_topological {cf : Circuit} (h : cf ∈ files) : cf.Topological := by
  obtain ⟨hin, hout, hbits⟩ := files_ordered cf h
  exact topological_of_bits hin hout hbits

/-! ## What a circuit computes -/

/-- The inputs of a circuit hold the words `a` and `b`, the least significant bits first. -/
structure Loaded (cf : Circuit) (a b : Word) (x : ℕ → Bool) : Prop where
  first : ∀ i < cf.n1, x i = a.getLsbD i
  second : ∀ i < cf.n2, x (cf.n1+i) = b.getLsbD i

def Computes (cf : Circuit) (op : Word → Word → Word) : Prop :=
  ∀ a b x, Loaded cf a b x → ∀ i < cf.n3, cf.plain x (cf.num_wire-cf.n3+i) = (op a b).getLsbD i

/-- What is known of the final wires: the inputs and the equations of all gates. -/
structure Wires (cf : Circuit) (a b : Word) (v : ℕ → Bool) : Prop where
  first : ∀ i < cf.n1, v i = a.getLsbD i
  second : ∀ i < cf.n2, v (cf.n1+i) = b.getLsbD i
  gate : ∀ g ∈ cf.gates, v g.out = g.value v

lemma wires_plain {cf : Circuit} (h : cf ∈ files) {a b : Word} {x : ℕ → Bool} (hx : Loaded cf a b x) :
    Wires cf a b (cf.plain x) := by
  obtain ⟨hkeep, hgate⟩ := plain_spec (files_topological h) x
  refine ⟨fun i hi => ?_,fun i hi => ?_,hgate⟩
  · exact (hkeep i (Nat.lt_add_right _ hi)).trans (hx.first i hi)
  · exact (hkeep _ (Nat.add_lt_add_left hi _)).trans (hx.second i hi)

lemma computes_of_wires {cf : Circuit} (h : cf ∈ files) {op : Word → Word → Word}
    (hv : ∀ a b v, Wires cf a b v → ∀ i < cf.n3, v (cf.num_wire-cf.n3+i) = (op a b).getLsbD i) :
    Computes cf op :=
  fun a b _ hx => hv a b _ (wires_plain h hx)

/-! ## The bitwise circuits -/

lemma and_computes : Computes and_32 (· &&& ·) := by
  refine computes_of_wires (by simp [files]) fun a b v hv i hi => ?_
  have hgate : v (64+i) = (v i && v (32+i)) :=
    hv.gate (.AND i (32+i) (64+i)) (List.mem_map.mpr ⟨i,List.mem_range.mpr hi,rfl⟩)
  have hfirst : v i = a.getLsbD i := hv.first i hi
  have hsecond : v (32+i) = b.getLsbD i := hv.second i hi
  rw [BitVec.getLsbD_and, ← hfirst, ← hsecond]
  exact hgate

lemma xor_computes : Computes xor_32 (· ^^^ ·) := by
  refine computes_of_wires (by simp [files]) fun a b v hv i hi => ?_
  have hgate : v (64+i) = (v i ^^ v (32+i)) :=
    hv.gate (.XOR i (32+i) (64+i)) (List.mem_map.mpr ⟨i,List.mem_range.mpr hi,rfl⟩)
  have hfirst : v i = a.getLsbD i := hv.first i hi
  have hsecond : v (32+i) = b.getLsbD i := hv.second i hi
  rw [BitVec.getLsbD_xor, ← hfirst, ← hsecond]
  exact hgate

lemma not_computes : Computes not_32 fun a _ => ~~~a := by
  refine computes_of_wires (by simp [files]) fun a b v hv i hi => ?_
  have hgate : v (32+i) = !v i :=
    hv.gate (.NOT i (32+i)) (List.mem_map.mpr ⟨i,List.mem_range.mpr hi,rfl⟩)
  have hfirst : v i = a.getLsbD i := hv.first i hi
  have hlt : i < 32 := hi
  rw [BitVec.getLsbD_not, ← hfirst, decide_eq_true hlt, Bool.true_and]
  exact hgate

lemma or_computes : Computes or_32 (· ||| ·) := by
  refine computes_of_wires (by simp [files]) fun a b v hv i hi => ?_
  have hstage : ∀ g ∈ orStage i, v g.out = g.value v := fun g hg =>
    hv.gate g (List.mem_flatMap.mpr ⟨i,List.mem_range.mpr hi,hg⟩)
  simp only [orStage, List.forall_mem_cons, BMR.Gate.out, BMR.Gate.value] at hstage
  obtain ⟨hna, hnb, hand, hout, -⟩ := hstage
  have hfirst : v i = a.getLsbD i := hv.first i hi
  have hsecond : v (32+i) = b.getLsbD i := hv.second i hi
  have hor : v (160+i) = (v i || v (32+i)) := by
    rw [hout, hand, hna, hnb, Bool.not_and, Bool.not_not, Bool.not_not]
  rw [BitVec.getLsbD_or, ← hfirst, ← hsecond]
  exact hor

/-! ## Addition and subtraction -/

lemma majority (x y c : Bool) : (c ^^ ((c ^^ y) && (c ^^ x))) = Bool.atLeastTwo x y c := by
  revert x y c
  decide

lemma majority_not (x y c : Bool) : (c ^^ ((c ^^ x) && !(c ^^ y))) = Bool.atLeastTwo x (!y) c := by
  revert x y c
  decide

section add
variable {a b : Word} {v : ℕ → Bool}

lemma addStage_gate (hv : Wires add_32 a b v) {i : ℕ} (h1 : 1 ≤ i) (hi : i ≤ 30) {g : BMR.Gate}
    (hg : g ∈ addStage i) : v g.out = g.value v := by
  refine hv.gate g (List.mem_append_left _ (List.mem_append_right _ (List.mem_flatMap.mpr ⟨i,?_,hg⟩)))
  exact List.mem_range'_1.mpr ⟨h1,by omega⟩

lemma add_bit (hv : Wires add_32 a b v) {i : ℕ} (hi : i < 32) :
    v i = a.getLsbD i ∧ v (32+i) = b.getLsbD i := ⟨hv.first i hi,hv.second i hi⟩

/-- Stage by stage, the wires `60+4*i` hold the carries. -/
lemma add_carry (hv : Wires add_32 a b v) {i : ℕ} (h1 : 1 ≤ i) (hi : i ≤ 31) :
    v (60+4*i) = BitVec.carry i a b false := by
  induction i, h1 using Nat.le_induction with
  | base =>
    obtain ⟨ha, hb⟩ := add_bit hv (show 0 < 32 by norm_num)
    have hgate : v 64 = (v 0 && v 32) := hv.gate (.AND 0 32 64) (by simp [add_32])
    rw [BitVec.carry_succ, BitVec.carry_zero, ← ha, ← hb]
    refine hgate.trans ?_
    cases v 0 <;> cases v 32 <;> rfl
  | succ i h1 ih =>
    have hstage := fun g hg => addStage_gate hv h1 (by omega : i ≤ 30) (g := g) hg
    simp only [addStage, List.forall_mem_cons, BMR.Gate.out, BMR.Gate.value] at hstage
    obtain ⟨hcb, -, hca, hand, hout, -⟩ := hstage
    obtain ⟨ha, hb⟩ := add_bit hv (by omega : i < 32)
    rw [BitVec.carry_succ, ← ha, ← hb, ← ih (by omega), ← majority]
    have hnext : 60+4*(i+1) = 60+4*i+4 := by ring
    rw [hnext, hout, hand, hcb, hca]

lemma add_computes : Computes add_32 (· + ·) := by
  refine computes_of_wires (by simp [files]) fun a b v hv i hi => ?_
  obtain ⟨ha, hb⟩ := add_bit hv hi
  have hsum : v (186+i) = (v i ^^ (v (32+i) ^^ BitVec.carry i a b false)) := by
    rcases Nat.eq_zero_or_pos i with rfl | h1
    · have hgate : v 186 = (v 0 ^^ v 32) := hv.gate (.XOR 0 32 186) (by simp [add_32])
      rw [BitVec.carry_zero, Bool.xor_false]
      exact hgate
    · have hi' : i < 32 := hi
      rw [← add_carry hv h1 (by omega), Bool.xor_comm (v i), Bool.xor_comm (v (32+i))]
      rcases Nat.lt_or_ge i 31 with h31 | h31
      · have hstage := fun g hg => addStage_gate hv h1 (by omega : i ≤ 30) (g := g) hg
        simp only [addStage, List.forall_mem_cons, BMR.Gate.out, BMR.Gate.value] at hstage
        rw [hstage.2.1, hstage.1]
      · obtain rfl : i = 31 := by omega
        have hcb : v 185 = (v 184 ^^ v 63) := hv.gate (.XOR 184 63 185) (by simp [add_32])
        have hout : v 217 = (v 185 ^^ v 31) := hv.gate (.XOR 185 31 217) (by simp [add_32])
        rw [hcb] at hout
        exact hout
  refine hsum.trans ?_
  rw [ha, hb]
  exact (BitVec.getLsbD_add hi a b).symm

end add

section sub
variable {a b : Word} {v : ℕ → Bool}

lemma subStage_gate (hv : Wires sub_32 a b v) {i : ℕ} (h2 : 2 ≤ i) (hi : i ≤ 30) {g : BMR.Gate}
    (hg : g ∈ subStage i) : v g.out = g.value v := by
  refine hv.gate g (List.mem_append_left _ (List.mem_append_right _ (List.mem_flatMap.mpr ⟨i,?_,hg⟩)))
  exact List.mem_range'_1.mpr ⟨h2,by omega⟩

lemma sub_bit (hv : Wires sub_32 a b v) {i : ℕ} (hi : i < 32) :
    v i = a.getLsbD i ∧ (!v (32+i)) = (~~~b).getLsbD i := by
  refine ⟨hv.first i hi,?_⟩
  rw [BitVec.getLsbD_not, decide_eq_true hi, Bool.true_and]
  exact congrArg _ (hv.second i hi)

/-- The first borrow, on wire 65, is the negated carry. -/
lemma sub_borrow (hv : Wires sub_32 a b v) : v 65 = !BitVec.carry 1 a (~~~b) true := by
  obtain ⟨ha, hb⟩ := sub_bit hv (show 0 < 32 by norm_num)
  have hna : v 64 = !v 0 := hv.gate (.NOT 0 64) (by simp [sub_32])
  have hand : v 65 = (v 64 && v 32) := hv.gate (.AND 64 32 65) (by simp [sub_32])
  rw [BitVec.carry_succ, BitVec.carry_zero, ← ha, ← hb, hand, hna]
  cases v 0 <;> cases v 32 <;> rfl

/-- The difference of one bit, from the carry of the bits below. -/
lemma sub_carry (hv : Wires sub_32 a b v) {i : ℕ} (h2 : 2 ≤ i) (hi : i ≤ 31) :
    v (60+5*i) = BitVec.carry i a (~~~b) true := by
  induction i, h2 using Nat.le_induction with
  | base =>
    obtain ⟨ha, hb⟩ := sub_bit hv (show 1 < 32 by norm_num)
    have hbb : v 66 = (v 65 ^^ v 33) := hv.gate (.XOR 65 33 66) (by simp [sub_32])
    have hc : v 67 = !v 65 := hv.gate (.NOT 65 67) (by simp [sub_32])
    have hca : v 68 = (v 67 ^^ v 1) := hv.gate (.XOR 67 1 68) (by simp [sub_32])
    have hand : v 69 = (v 68 && v 66) := hv.gate (.AND 68 66 69) (by simp [sub_32])
    have hout : v 70 = (v 67 ^^ v 69) := hv.gate (.XOR 67 69 70) (by simp [sub_32])
    rw [BitVec.carry_succ, ← ha, ← hb, ← majority_not]
    refine hout.trans ?_
    rw [hand, hca, hbb, hc, sub_borrow hv]
    cases BitVec.carry 1 a (~~~b) true <;> simp
  | succ i h2 ih =>
    have hstage := fun g hg => subStage_gate hv h2 (by omega : i ≤ 30) (g := g) hg
    simp only [subStage, List.forall_mem_cons, BMR.Gate.out, BMR.Gate.value] at hstage
    obtain ⟨hcb, hn, -, hca, hand, hout, -⟩ := hstage
    obtain ⟨ha, hb⟩ := sub_bit hv (by omega : i < 32)
    rw [BitVec.carry_succ, ← ha, ← hb, ← ih (by omega), ← majority_not]
    have hnext : 60+5*(i+1) = 60+5*i+5 := by ring
    rw [hnext, hout, hand, hca, hn, hcb]

lemma sub_computes : Computes sub_32 (fun a b => a-b) := by
  refine computes_of_wires (by simp [files]) fun a b v hv i hi => ?_
  obtain ⟨ha, hb⟩ := sub_bit hv hi
  have hdiff : v (218+i) = (v i ^^ ((!v (32+i)) ^^ BitVec.carry i a (~~~b) true)) := by
    rcases (by omega : i = 0 ∨ i = 1 ∨ 2 ≤ i) with rfl | rfl | h2
    · have hgate : v 218 = (v 0 ^^ v 32) := hv.gate (.XOR 0 32 218) (by simp [sub_32])
      refine hgate.trans ?_
      rw [BitVec.carry_zero]
      simp
    · have hbb : v 66 = (v 65 ^^ v 33) := hv.gate (.XOR 65 33 66) (by simp [sub_32])
      have hgate : v 219 = (v 66 ^^ v 1) := hv.gate (.XOR 66 1 219) (by simp [sub_32])
      rw [hbb, sub_borrow hv] at hgate
      refine hgate.trans ?_
      cases BitVec.carry 1 a (~~~b) true <;> cases v 1 <;> simp
    · have hi' : i < 32 := hi
      rw [← sub_carry hv h2 (by omega)]
      rcases Nat.lt_or_ge i 31 with h31 | h31
      · have hstage := fun g hg => subStage_gate hv h2 (by omega : i ≤ 30) (g := g) hg
        simp only [subStage, List.forall_mem_cons, BMR.Gate.out, BMR.Gate.value] at hstage
        rw [hstage.2.2.1, hstage.2.1, hstage.1]
        cases v i <;> cases v (60+5*i) <;> simp
      · obtain rfl : i = 31 := by omega
        have hcb : v 216 = (v 215 ^^ v 63) := hv.gate (.XOR 215 63 216) (by simp [sub_32])
        have hca : v 217 = (v 216 ^^ v 31) := hv.gate (.XOR 216 31 217) (by simp [sub_32])
        have hout : v 249 = !v 217 := hv.gate (.NOT 217 249) (by simp [sub_32])
        rw [hca, hcb] at hout
        refine hout.trans ?_
        cases v 31 <;> cases v 215 <;> simp
  have hsub : a-b = a+~~~b+(BitVec.ofBool true).setWidth 32 := by
    rw [BitVec.sub_eq_add_neg, BitVec.neg_eq_not_add, BitVec.add_assoc]
    rfl
  refine hdiff.trans ?_
  rw [ha, hb, hsub]
  exact (BitVec.getLsbD_add_add_bool hi a (~~~b) true).symm

end sub

/-! ## The check for zero -/

/-- The wires from 64 on tell whether the bits so far are all zero. -/
lemma zero_chain {a b : Word} {v : ℕ → Bool} (hv : Wires zero_check a b v) {k : ℕ} (hk : k ≤ 30) :
    v (64+k) = true ↔ ∀ i < k+2, a.getLsbD i = false := by
  have hnot : ∀ i < 32, v (32+i) = !a.getLsbD i := by
    intro i hi
    have hgate : v (32+i) = !v i := hv.gate (.NOT i (32+i)) (by simp [zero_check, hi])
    have hfirst : v i = a.getLsbD i := hv.first i hi
    rw [hgate, hfirst]
  induction k with
  | zero =>
    have hgate : v 64 = (v 32 && v 33) := hv.gate (.AND 32 33 64) (by simp [zero_check])
    have h0 : v 32 = !a.getLsbD 0 := hnot 0 (by norm_num)
    have h1 : v 33 = !a.getLsbD 1 := hnot 1 (by norm_num)
    rw [Nat.add_zero, hgate, Bool.and_eq_true, h0, h1, Bool.not_eq_true', Bool.not_eq_true']
    refine ⟨fun ⟨ha0, ha1⟩ i hi => ?_,fun h => ⟨h 0 (by omega),h 1 (by omega)⟩⟩
    rcases (by omega : i = 0 ∨ i = 1) with rfl | rfl
    · exact ha0
    · exact ha1
  | succ k ih =>
    have hgate : v (64+(k+1)) = (v (33+(k+1)) && v (63+(k+1))) :=
      hv.gate (.AND (33+(k+1)) (63+(k+1)) (64+(k+1))) (by
        simp only [zero_check, List.mem_append, List.mem_map, List.mem_range'_1]
        exact .inl (.inr ⟨k+1,⟨by omega,by omega⟩,rfl⟩))
    have hbit : v (33+(k+1)) = !a.getLsbD (k+2) := by
      rw [← hnot (k+2) (by omega)]
      exact congrArg v (by ring)
    have hprev : 63+(k+1) = 64+k := by ring
    have hlow : v (64+k) = true ↔ ∀ i < k+2, a.getLsbD i = false := ih (by omega)
    rw [hgate, hbit, hprev, Bool.and_eq_true, Bool.not_eq_true', hlow]
    refine ⟨fun ⟨htop, h⟩ i hi => ?_,fun h => ⟨h _ (by omega),fun i hi => h i (by omega)⟩⟩
    rcases (by omega : i = k+2 ∨ i < k+2) with rfl | hi
    · exact htop
    · exact h i hi

lemma zero_computes : Computes zero_check fun a _ => if a = 0 then 0 else 1 := by
  refine computes_of_wires (by simp [files]) fun a b v hv i hi => ?_
  obtain rfl : i = 0 := Nat.lt_one_iff.mp hi
  have hgate : v 95 = !v 94 := hv.gate (.NOT 94 95) (by simp [zero_check])
  have hall : v 94 = true ↔ a = 0 := by
    rw [zero_chain hv (le_refl 30)]
    refine ⟨fun h => BitVec.eq_of_getLsbD_eq fun i hi => ?_,fun h => ?_⟩
    · rw [h i hi]
      simp
    · subst h
      simp
  refine hgate.trans ?_
  by_cases ha : a = 0
  · rw [hall.mpr ha, if_pos ha]
    rfl
  · rw [Bool.eq_false_iff.mpr fun h => ha (hall.mp h), if_neg ha]
    rfl

/-! ## The shifts -/

/-- The affine form of a gate over the 64 inputs. -/
def gateForm (g : BMR.Gate) (m : ℕ → ℕ) : Option ℕ :=
  match g with
  | .AND a b _ => Affine.conj 64 (m a) (m b)
  | .XOR a b _ => some (m a ^^^ m b)
  | .NOT a _ => some (m a ^^^ 2^64)

lemma gateForm_sound {x : ℕ → Bool} (hx : x 64 = true) (g : BMR.Gate) (m : ℕ → ℕ) (v : ℕ → Bool) (r : ℕ)
    (hr : gateForm g m = some r) (hlt : ∀ w, m w < 2^65)
    (hm : ∀ a ∈ g.ins, Affine.value x 65 (m a) = v a) :
    Affine.value x 65 r = g.value v ∧ r < 2^65 := by
  cases g with
  | AND a b w =>
    have ha := hm a (by simp [BMR.Gate.ins])
    have hb := hm b (by simp [BMR.Gate.ins])
    refine ⟨?_,Affine.conj_lt (hlt a) (hlt b) hr⟩
    rw [Affine.value_conj hx hr, ha, hb]
    rfl
  | XOR a b w =>
    have ha := hm a (by simp [BMR.Gate.ins])
    have hb := hm b (by simp [BMR.Gate.ins])
    obtain rfl := Option.some.inj hr
    refine ⟨?_,Nat.xor_lt_two_pow (hlt a) (hlt b)⟩
    rw [Affine.value_xor, ha, hb]
    rfl
  | NOT a w =>
    have ha := hm a (by simp [BMR.Gate.ins])
    obtain rfl := Option.some.inj hr
    refine ⟨?_,Nat.xor_lt_two_pow (hlt a) (by norm_num)⟩
    rw [Affine.value_xor, Affine.value_two_pow, ha, hx]
    simp [BMR.Gate.value]

/-- The inputs, with the shift amount `s` in place of its wires. -/
def shiftForms (s w : ℕ) : ℕ :=
  if 32 ≤ w ∧ w < 37 then if s.testBit (w-32) then 2^64 else 0 else 2^w

/-- The outputs of a shift by `s` are the inputs that `target` tells. -/
def shiftsTo (cf : Circuit) (target : ℕ → ℕ → ℕ) (s : ℕ) : Bool :=
  match Affine.run 65 gateForm BMR.Gate.out cf.gates (Affine.load 65 (shiftForms s) 64) with
  | none => false
  | some V => (List.range 32).all fun i => Affine.slot 65 V (cf.num_wire-32+i) == target s i

def leftForm (s i : ℕ) : ℕ := if s ≤ i then 2^(i-s) else 0
def rightForm (s i : ℕ) : ℕ := 2^min (i+s) 31

lemma left_forms : ∀ s < 32, shiftsTo left_shift leftForm s = true := by decide +kernel
lemma right_forms : ∀ s < 32, shiftsTo right_shift rightForm s = true := by decide +kernel

lemma shiftForms_lt (s : ℕ) {w : ℕ} (hw : w < 64) : shiftForms s w < 2^65 := by
  unfold shiftForms
  split_ifs
  · norm_num
  · norm_num
  · exact Nat.pow_lt_pow_right (by norm_num) (by omega)

/-- The form of an input has the input's value. -/
lemma value_shiftForms {cf : Circuit} (hn1 : cf.n1 = 32) (hn2 : cf.n2 = 32) {a b : Word} {x : ℕ → Bool}
    (hx : Loaded cf a b x) {w : ℕ} (hw : w < 64) :
    Affine.value (Function.update x 64 true) 65 (shiftForms (b.toNat%32) w) = x w := by
  unfold shiftForms
  by_cases hs : 32 ≤ w ∧ w < 37
  · have hbit : x w = (b.toNat%32).testBit (w-32) := by
      have hsecond := hx.second (w-32) (by omega)
      rw [hn1, Nat.add_sub_cancel' hs.1] at hsecond
      have hlow := Nat.testBit_mod_two_pow b.toNat 5 (w-32)
      rw [decide_eq_true (by omega), Bool.true_and] at hlow
      exact hsecond.trans hlow.symm
    rw [if_pos hs, ← hbit]
    cases x w with
    | false => exact Affine.value_zero _ _
    | true =>
      have hone : Affine.value (Function.update x 64 true) 65 (2^64) = true := by
        rw [Affine.value_two_pow, Function.update_self]
        rfl
      exact hone
  · rw [if_neg hs, Affine.value_two_pow, decide_eq_true (by omega), Bool.true_and,
      Function.update_of_ne (by omega)]

/-- A circuit that is affine for every shift amount computes what its forms say. -/
lemma shift_value {cf : Circuit} (hcf : cf ∈ files) (hn1 : cf.n1 = 32) (hn2 : cf.n2 = 32)
    (hn3 : cf.n3 = 32) {target : ℕ → ℕ → ℕ} (h : ∀ s < 32, shiftsTo cf target s = true) {a b : Word}
    {x : ℕ → Bool} (hx : Loaded cf a b x) {i : ℕ} (hi : i < 32) :
    cf.plain x (cf.num_wire-32+i) =
      Affine.value (Function.update x 64 true) 65 (target (b.toNat%32) i) := by
  obtain ⟨-, hout, horder⟩ := files_topological hcf
  have hforms := h (b.toNat%32) (Nat.mod_lt _ (by norm_num))
  unfold shiftsTo at hforms
  split at hforms
  · cases hforms
  · next V hrun =>
    have hslot := fun w => Affine.slot_load (k := 65) (n := 64) (fun w hw => shiftForms_lt (b.toNat%32) hw) w
    have hsize : cf.in_size = 64 := by rw [Circuit.in_size, hn1, hn2]
    have hsound := Affine.run_sound (x := Function.update x 64 true) (v := x)
      (gateForm_sound (Function.update_self _ _ _)) horder (fun w hw => ?_) (fun w hw => ?_) hrun
    · have hform := List.all_eq_true.mp hforms i (List.mem_range.mpr hi)
      rw [← beq_iff_eq.mp hform]
      exact (hsound _ (by omega)).symm
    · rw [hslot, if_neg fun hlt => hw (Finset.mem_range.mpr (hsize ▸ hlt))]
    · have hlt : w < 64 := hsize ▸ Finset.mem_range.mp hw
      rw [hslot, if_pos hlt, value_shiftForms hn1 hn2 hx hlt]

lemma value_input {x : ℕ → Bool} {j : ℕ} (hj : j < 32) :
    Affine.value (Function.update x 64 true) 65 (2^j) = x j := by
  rw [Affine.value_two_pow, decide_eq_true (by omega), Bool.true_and, Function.update_of_ne (by omega)]

lemma left_computes : Computes left_shift fun a b => a <<< (b.toNat%32) := by
  intro a b x hx i hi
  refine (shift_value (by simp [files]) rfl rfl rfl left_forms hx hi).trans ?_
  have hlt : i < 32 := hi
  rw [BitVec.getLsbD_shiftLeft, leftForm, decide_eq_true hlt, Bool.true_and]
  split
  · next hs =>
    rw [value_input (by omega), decide_eq_false (Nat.not_lt.mpr hs), Bool.not_false, Bool.true_and]
    exact hx.first _ (show i-b.toNat%32 < 32 by omega)
  · next hs =>
    rw [Affine.value_zero, decide_eq_true (Nat.lt_of_not_le hs)]
    rfl

lemma right_computes : Computes right_shift fun a b => a.sshiftRight (b.toNat%32) := by
  intro a b x hx i hi
  refine (shift_value (by simp [files]) rfl rfl rfl right_forms hx hi).trans ?_
  have hlt : i < 32 := hi
  have hmin : min (i+b.toNat%32) 31 < 32 := by omega
  rw [BitVec.getLsbD_sshiftRight, rightForm, value_input hmin, hx.first _ hmin,
    decide_eq_false (Nat.not_le.mpr hlt), Bool.not_false, Bool.true_and]
  split
  · next hs =>
    rw [Nat.min_eq_left (by omega), Nat.add_comm]
  · next hs =>
    rw [Nat.min_eq_right (by omega), BitVec.msb_eq_getLsbD_last]

/-- What every circuit of the machine computes. -/
theorem circuits_compute : Computes and_32 (fun a b => a &&& b) ∧ Computes or_32 (fun a b => a ||| b) ∧
    Computes xor_32 (fun a b => a ^^^ b) ∧ Computes not_32 (fun a _ => ~~~a) ∧
    Computes left_shift (fun a b => a <<< (b.toNat%32)) ∧
    Computes right_shift (fun a b => a.sshiftRight (b.toNat%32)) ∧
    Computes add_32 (fun a b => a+b) ∧ Computes sub_32 (fun a b => a-b) ∧
    Computes zero_check fun a _ => if a = 0 then 0 else 1 :=
  ⟨and_computes,or_computes,xor_computes,not_computes,left_computes,right_computes,add_computes,
    sub_computes,zero_computes⟩

end OramPro.Cir
